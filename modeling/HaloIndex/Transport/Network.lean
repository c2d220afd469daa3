import HaloIndex.Transport.Program

namespace HaloIndex

structure Message where
  source : Nat
  tag : Tag
  payload : List UInt8
  deriving DecidableEq

/-- One queue of messages for each rank, oldest first. -/
structure Network where
  mailboxes : List (List Message)
  deriving DecidableEq

namespace Network

def quiet (size : Nat) : Network := ⟨List.replicate size []⟩

def size (n : Network) : Nat := n.mailboxes.length

def mailbox (n : Network) (rank : Nat) : List Message := n.mailboxes[rank]?.getD []

def deliver (n : Network) (rank : Nat) (m : Message) : Network :=
  ⟨n.mailboxes.modify rank (· ++ [m])⟩

def withMailbox (n : Network) (rank : Nat) (messages : List Message) : Network :=
  ⟨n.mailboxes.set rank messages⟩

def channel (n : Network) (source dest : Nat) (tag : Tag) : List (List UInt8) :=
  ((n.mailbox dest).filter fun m => m.source == source && m.tag == tag).map (·.payload)

/-- The answer to a request of a rank and the network afterwards; none if the rank has to
wait. -/
def perform (n : Network) (rank : Nat) : (r : Request) → Option (r.Answer × Network)
  | .post peer tag payload =>
    if peer < n.size then some (.ok ⟨peer⟩, n.deliver peer ⟨rank, tag, payload⟩)
    else
      let size := n.size
      some (.error (.communication peer s!"rank out of range for a universe of {size}"), n)
  | .wait _ => some (.ok (), n)
  | .probe source tag =>
    ((n.mailbox rank).find? fun m => m.tag == tag && source.admits m.source).map fun m =>
      (.ok ⟨m.source, m.payload.length⟩, n)
  | .receive source tag =>
    let wanted (m : Message) : Bool := m.tag == tag && m.source == source
    ((n.mailbox rank).find? wanted).map fun m =>
      (.ok m.payload, n.withMailbox rank ((n.mailbox rank).eraseP wanted))
  | .queued => some (.ok (n.mailbox rank).length, n)

end Network

def noPeers (rank : Nat) : Fault :=
  .communication rank "single-process communicator has no peers"

/-- The outcome of a program on a rank of its own, which has nobody to talk to. -/
def Program.alone {α : Type} : Program α → α
  | .done value => value
  | .ask (.post peer _ _) next => (next (.error (noPeers peer))).alone
  | .ask (.wait _) next => (next (.ok ())).alone
  | .ask (.probe _ _) next => (next (.error (noPeers 0))).alone
  | .ask (.receive source _) next => (next (.error (noPeers source))).alone
  | .ask .queued next => (next (.ok 0)).alone

end HaloIndex
