import HaloIndex.IndexSet.Basic

namespace HaloIndex

namespace IndexSet

variable {G A : Type}

def beginResize (s : IndexSet G A) : Except Fault Unit × IndexSet G A :=
  afterCheck (s.require "begin_resize" .ground) s (.ok (), { s with phase := .resize })

def deleteAt (s : IndexSet G A) (position : Nat) : Except Fault Unit × IndexSet G A :=
  afterCheck (s.require "mark_as_deleted" .resize) s <|
    if position < s.size then
      (.ok (), { s with holdings := s.holdings.modify position (·.withState .deleted) })
    else (.error (.outOfRange position s.size), s)

/-- Drop the additions and the deletion flags; the revision stays. -/
def abortResize (s : IndexSet G A) : IndexSet G A :=
  if s.phase = .resize then
    { s with
      holdings := s.holdings.map (·.withState .valid)
      additions := []
      pendingKeys := []
      phase := .ground }
  else s

def renumber (s : IndexSet G A) : Except Fault Unit × IndexSet G A :=
  afterCheck (s.require "renumber_local" .ground) s
    (.ok (), { s with holdings := s.holdings.mapIdx fun i h => h.withSlot i })

def survivors (s : IndexSet G A) : List (Holding G A) := s.holdings.filter (!·.isDeleted)

/-- The slots that are fixed before a commit: those of what stays and those that callers
chose. -/
def fixedSlots (s : IndexSet G A) : List Nat :=
  s.survivors.map Holding.slot ++ s.additions.filterMap Addition.slot

def unplaced (s : IndexSet G A) : Nat := s.additions.countP fun a => decide (a.slot = none)

/-- Whether a commit can count its slots without starting over at zero. -/
def countsOn (s : IndexSet G A) : Bool :=
  decide (s.fixedSlots.max?.elim 0 (· + 1) + s.unplaced < UInt64.size)

/-- The slot after the largest one of a list, zero if it is empty. -/
def firstFreeSlot (slots : List Nat) : Nat := slots.max?.elim 0 slotAfter

/-- Turn additions into holdings, numbering those without a slot from `next` on. -/
def place (next : Nat) : List (Addition G A) → List (Holding G A)
  | [] => []
  | a :: rest => match a.slot with
    | some slot => ⟨a.key.globalId, .valid slot a.key.role a.isPublic⟩ :: place next rest
    | none =>
      ⟨a.key.globalId, .valid next a.key.role a.isPublic⟩ :: place (slotAfter next) rest

variable [DecidableEq G] [LT G] [DecidableLT G]

/-- Flag all holdings of a global identifier; the count is of those that were not flagged
before. -/
def deleteGlobal (s : IndexSet G A) (globalId : G) : Except Fault Nat × IndexSet G A :=
  afterCheck (s.require "mark_global_deleted" .resize) s <|
    let (before, same, after) := s.splitAtGlobal globalId
    let holdings := before ++ same.map (·.withState .deleted) ++ after
    (.ok (same.countP (!·.isDeleted)), { s with holdings })

variable [LT A] [DecidableLT A]

def sortedAdditions (s : IndexSet G A) : List (Addition G A) :=
  s.additions.mergeSort fun a b => !decide (b.key < a.key)

def commit (s : IndexSet G A) : Except Fault Unit × IndexSet G A :=
  afterCheck (s.require "end_resize" .resize) s <|
    let added := place (firstFreeSlot s.fixedSlots) s.sortedAdditions
    let holdings := s.survivors.merge added fun a b => !decide (b.key < a.key)
    (.ok (), ⟨holdings, [], [], .ground, s.revision + 1⟩)

/-- The commit in one of the builds. -/
def commitBy (build : Build) (s : IndexSet G A) : Except Fault Unit × IndexSet G A :=
  match build with
  | .plain => s.commit
  | .checked =>
    afterCheck (s.require "end_resize" .resize) s <|
      if s.countsOn then s.commit else (.error (.panicked "attempt to add with overflow"), s)

def queue (s : IndexSet G A) (a : Addition G A) : IndexSet G A :=
  { s with additions := a :: s.additions, pendingKeys := a.key :: s.pendingKeys }

variable [DecidableEq A] [Scalar G] [Role A]

def add (s : IndexSet G A) (key : Key G A) (isPublic : Bool) (slot : Option Nat) :
    Except Fault Unit × IndexSet G A :=
  afterCheck (s.require "add" .resize) s <|
    if s.holds key then (.error (.duplicateKey key.text), s)
    else (.ok (), s.queue ⟨key, slot, isPublic⟩)

/-- Queue several keys. Those that are refused are left out; each is reported with its position
in the list. -/
def addEach (s : IndexSet G A) (place : Nat) :
    List (Addition G A) → List (Nat × Fault) × IndexSet G A
  | [] => ([], s)
  | a :: rest =>
    match s.add a.key a.isPublic a.slot with
    | (.ok (), s) => addEach s (place + 1) rest
    | (.error f, s) =>
      let (refused, final) := addEach s (place + 1) rest
      ((place, f) :: refused, final)

def fill (s : IndexSet G A) (additions : List (Addition G A)) :
    Except Fault (List (Nat × Fault)) × IndexSet G A :=
  match s.beginResize with
  | (.error f, s) => (.error f, s)
  | (.ok (), opened) =>
    let (refused, filled) := opened.addEach 0 additions
    let (outcome, s) := filled.commit
    (outcome.map fun _ => refused, s)

end IndexSet

end HaloIndex
