import HaloIndex.Halo.Plan
import HaloIndex.Link.Table

namespace HaloIndex

abbrev Named (α : Type) := List (String × α)

def Named.get? {α : Type} (xs : Named α) (name : String) : Option α :=
  (xs.find? (·.1 == name)).map (·.2)

def Named.put {α : Type} (xs : Named α) (name : String) (a : α) : Named α :=
  (name, a) :: xs.filter (·.1 != name)

structure Workspace (G A : Type) where
  sets : Named (IndexSet G A) := []
  tables : Named (LinkTable G A) := []
  plans : Named HaloPlan := []

namespace Workspace

variable {G A : Type}

def set (w : Workspace G A) (name : String) : IndexSet G A :=
  (Named.get? w.sets name).getD .empty

def table (w : Workspace G A) (name : String) : LinkTable G A :=
  (Named.get? w.tables name).getD {}

def plan (w : Workspace G A) (name : String) : HaloPlan := (Named.get? w.plans name).getD .empty

def putSet (w : Workspace G A) (name : String) (s : IndexSet G A) : Workspace G A :=
  { w with sets := Named.put w.sets name s }

def putTable (w : Workspace G A) (name : String) (t : LinkTable G A) : Workspace G A :=
  { w with tables := Named.put w.tables name t }

def putPlan (w : Workspace G A) (name : String) (p : HaloPlan) : Workspace G A :=
  { w with plans := Named.put w.plans name p }

/-- The sets of an exchange. One name in both roles means one set. -/
def endpoints (w : Workspace G A) (source dest : String) : Endpoints G A :=
  if source = dest then .one (w.set source) else .two (w.set source) (w.set dest)

end Workspace

end HaloIndex
