import HaloIndex.Fault
import HaloIndex.Settings

namespace HaloIndex

inductive Source where
  | anyone
  | rank (rank : Nat)
  deriving DecidableEq

def Source.admits : Source → Nat → Bool
  | anyone, _ => true
  | rank r, sender => r == sender

structure Handle where
  peer : Nat
  deriving DecidableEq

/-- Sender and length of a message that was probed and is still queued. -/
structure Envelope where
  source : Nat
  length : Nat
  deriving DecidableEq

inductive Request where
  | post (peer : Nat) (tag : Tag) (payload : List UInt8)
  | wait (handle : Handle)
  /-- Wait for a message and leave it queued. -/
  | probe (source : Source) (tag : Tag)
  | receive (source : Nat) (tag : Tag)
  /-- How many messages are queued, whatever their tags. -/
  | queued
  deriving DecidableEq

abbrev Request.Reply : Request → Type
  | post .. => Handle
  | wait _ => Unit
  | probe .. => Envelope
  | receive .. => List UInt8
  | queued => Nat

/-- The answer to a request: its reply, or why it was refused. -/
abbrev Request.Answer (r : Request) : Type := Except Fault r.Reply

/-- A computation that talks to the transport. -/
inductive Program (α : Type) where
  | done (value : α)
  | ask (request : Request) (next : request.Answer → Program α)

namespace Program

variable {α β : Type}

def bind : Program α → (α → Program β) → Program β
  | done value, f => f value
  | ask request next, f => ask request fun answer => (next answer).bind f

instance : Monad Program where
  pure := done
  bind := bind

@[simp]
theorem pure_bind (a : α) (f : α → Program β) : (pure a >>= f) = f a := rfl

@[simp]
theorem ask_bind (request : Request) (next : request.Answer → Program α) (f : α → Program β) :
    (ask request next >>= f) = ask request fun answer => next answer >>= f := rfl

theorem bind_done (p : Program α) : p.bind done = p := by
  induction p with
  | done value => rfl
  | ask request next ih => exact congrArg _ (funext ih)

theorem bind_bind {γ : Type} (p : Program α) (f : α → Program β) (g : β → Program γ) :
    (p.bind f).bind g = p.bind fun a => (f a).bind g := by
  induction p with
  | done value => rfl
  | ask request next ih => exact congrArg _ (funext ih)

instance : LawfulMonad Program :=
  .mk' _ (fun p => bind_done p) (fun _ _ => rfl) (fun p f g => bind_bind p f g)

def request (r : Request) : Program r.Answer := ask r done

end Program

/-- A computation that talks to the transport and may end with a fault. -/
abbrev Talk := ExceptT Fault Program

namespace Talk

def post (peer : Nat) (tag : Tag) (payload : List UInt8) : Talk Handle :=
  Program.request (.post peer tag payload)

def wait (handle : Handle) : Talk Unit := Program.request (.wait handle)

def probe (source : Source) (tag : Tag) : Talk Envelope := Program.request (.probe source tag)

def receive (source : Nat) (tag : Tag) : Talk (List UInt8) :=
  Program.request (.receive source tag)

def queued : Talk Nat := Program.request .queued

def send (peer : Nat) (tag : Tag) (payload : List UInt8) : Talk Unit := do
  wait (← post peer tag payload)

def ofExcept {α : Type} (result : Except Fault α) : Talk α := ExceptT.mk (.done result)

end Talk

end HaloIndex
