import HaloIndex.Transport.Program

namespace HaloIndex.Exchange

/-- Post a message to each peer in turn. The result is what can be waited for and the failure
that stopped the posting, if any. -/
def postAll (tag : Tag) :
    List (Nat × Except Fault (List UInt8)) → Program (List Handle × Except Fault Unit)
  | [] => return ([], .ok ())
  | (_, .error f) :: _ => return ([], .error f)
  | (peer, .ok payload) :: rest => do
    match ← (Talk.post peer tag payload).run with
    | .error f => return ([], .error f)
    | .ok handle =>
      let (handles, outcome) ← postAll tag rest
      return (handle :: handles, outcome)

/-- Take a message from each peer in turn, until one fails. The state is kept in either case. -/
def takeAll {σ : Type} (take : Nat → σ → Program (Except Fault Unit × σ)) :
    List Nat → σ → Program (Except Fault Unit × σ)
  | [], state => return (.ok (), state)
  | peer :: rest, state => do
    match ← take peer state with
    | (.error f, state) => return (.error f, state)
    | (.ok (), state) => takeAll take rest state

/-- Wait for each handle in turn. A failure becomes the outcome unless there was one before. -/
def waitAll : List Handle → Except Fault Unit → Program (Except Fault Unit)
  | [], outcome => return outcome
  | handle :: rest, outcome => do
    let waited ← (Talk.wait handle).run
    waitAll rest (outcome.bind fun _ => waited)

/-- Post to all peers, take from all peers if nothing failed, and wait for everything that was
posted. -/
def round {σ : Type} (tag : Tag) (outgoing : List (Nat × Except Fault (List UInt8)))
    (take : Nat → σ → Program (Except Fault Unit × σ)) (state : σ) :
    Program (Except Fault Unit × σ) := do
  let (handles, posted) ← postAll tag outgoing
  let (taken, state) ← match posted with
    | .ok () => takeAll take (outgoing.map (·.1)) state
    | .error f => pure (.error f, state)
  let outcome ← waitAll handles taken
  return (outcome, state)

end HaloIndex.Exchange
