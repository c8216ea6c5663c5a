import ObjectTransfer.Codec.Fec
import ObjectTransfer.Fec.Calls
import ObjectTransfer.Fec.Sending

/-! # A sender and a receiver

Both ends, an in-order control channel each way, and a datagram channel that may drop, delay,
duplicate and reorder: a symbol once sent can arrive any number of times at any later moment, or
never. The sender announces the epochs its table accepts, sends symbols of generations it has
begun, and closes. The receiver extends credit, answers a refused open, reports, and announces how
generations ended.
-/

namespace ObjectTransfer.Fec
open Foundations Codec

/-- Control frames to the receiver. -/
inductive Forward where
  | epochOpen (plan : EpochPlan)
  | epochClose (epoch : ℕ)
  deriving DecidableEq

/-- Control frames to the sender. -/
inductive Backward where
  | credit (credit : Credit)
  | state (epoch generation : ℕ) (report : Report)
  | done (epoch generation : ℕ) (outcome : GenOutcome)
  deriving DecidableEq

structure Datagram where
  epoch : ℕ
  generation : ℕ
  esi : ℕ
  bytes : Bytes
  deriving DecidableEq

/-- Both ends, what is in flight, every symbol sent, and the receiver's terminal results. -/
structure Session where
  sender : Sender
  receiver : Receiver
  forward : List Forward
  backward : List Backward
  datagrams : List Datagram
  results : List ((ℕ × ℕ) × Done)

/-- What closes a session, and a panic of either end. -/
inductive Fault where
  | openRejected
  | stateRejected
  | doneRejected
  | reportRejected
  | panic
  deriving DecidableEq, Repr

inductive Act where
  | «open» (plan : EpochPlan)
  | begin (epoch generation : ℕ)
  | send (datagram : Datagram)
  | close (epoch : ℕ)
  | credit (credit : Credit)
  | report (epoch generation : ℕ)
  | abandon (epoch generation : ℕ)
  | hear
  | learn
  | receive (datagram : Datagram) (stated : Bool)

def Done.outcome : Done → GenOutcome
  | .decoded => .decoded
  | .abandoned => .abandoned

namespace Session

def new : Session := ⟨.new, .new, [], [], [], []⟩

/-- `GEN_STATE` goes out. -/
def owe (session : Session) (epoch generation : ℕ) (report : Report) : Except Fault Session :=
  match encodeGenState (stateOf epoch generation report) with
  | .error _ => .error .reportRejected
  | .ok _ => .ok { session with backward := session.backward ++ [.state epoch generation report] }

/-- A terminal result of the receiver, and its `GEN_DONE`. -/
def settle (session : Session) (epoch generation : ℕ) (done : Done) : Session :=
  { session with
    backward := session.backward ++ [.done epoch generation done.outcome]
    results := session.results ++ [((epoch, generation), done)] }

def hear (session : Session) : Except Fault Session :=
  match session.forward with
  | [] => .ok session
  | .epochOpen plan :: forward =>
    match session.receiver.open plan with
    | (_, .error _) => .error .openRejected
    | (receiver, .ok .refused) => .ok
      { session with
        receiver, forward
        backward := session.backward ++ [.done plan.epoch 0 .refused] }
    | (receiver, .ok _) => .ok { session with receiver, forward }
  | .epochClose epoch :: forward =>
    match session.receiver.close epoch with
    | none => .error .panic
    | some (receiver, _) => .ok { session with receiver, forward }

/-- The end of an epoch at the sender, announced if the sender knew it. -/
def closed (session : Session) (epoch : ℕ) (result : Option (Sender × Bool)) : Except Fault Session :=
  match result with
  | none => .error .panic
  | some (sender, false) => .ok { session with sender }
  | some (sender, true) => .ok
    { session with sender, forward := session.forward ++ [.epochClose epoch] }

def ended (session : Session) (epoch generation : ℕ) (done : Done) : Except Fault Session :=
  match session.sender.done epoch generation done with
  | .error (.error _) => .error .doneRejected
  | .error .panic => .error .panic
  | .ok (sender, _) => .ok { session with sender }

def learn (session : Session) : Except Fault Session :=
  match session.backward with
  | [] => .ok session
  | .credit credit :: backward =>
    .ok { session with sender := (session.sender.credit credit).1, backward }
  | .state epoch generation report :: backward =>
    match session.sender.state epoch generation report with
    | .error (.error _) => .error .stateRejected
    | .error .panic => .error .panic
    | .ok (sender, _) => .ok { session with sender, backward }
  | .done epoch generation outcome :: backward =>
    let session := { session with backward }
    match outcome with
    | .decoded => session.ended epoch generation .decoded
    | .abandoned => session.ended epoch generation .abandoned
    | .refused => session.closed epoch (session.sender.refused epoch)

variable [Gf.Simd]

/-- A symbol reaches the receiver; `stated` is whether there is room for an advisory report. -/
def receive (session : Session) (datagram : Datagram) (stated : Bool) : Except Fault Session :=
  let { epoch, generation, esi, bytes } := datagram
  match session.receiver.symbol epoch generation esi bytes with
  | none => .error .panic
  | some (receiver, .decoded _) => .ok ({ session with receiver }.settle epoch generation .decoded)
  | some (receiver, .abandoned _ report) => do
    let session := { session with receiver }
    let session ← if stated then session.owe epoch generation report else .ok session
    return session.settle epoch generation .abandoned
  | some (receiver, _) => .ok { session with receiver }

/-- One act of an end or of a channel. What is not allowed does nothing. -/
def act (session : Session) : Act → Except Fault Session
  | .open plan =>
    match session.sender.open plan with
    | .error _ => .ok session
    | .ok sender => .ok { session with sender, forward := session.forward ++ [.epochOpen plan] }
  | .begin epoch generation =>
    match session.sender.begin epoch generation with
    | .error (.error _) => .ok session
    | .error .panic => .error .panic
    | .ok sender => .ok { session with sender }
  | .send datagram =>
    if (session.sender.outcome datagram.epoch datagram.generation).isSome then
      .ok { session with datagrams := session.datagrams ++ [datagram] }
    else .ok session
  | .close epoch => session.closed epoch (session.sender.close epoch)
  | .credit credit =>
    match session.receiver.credit credit with
    | (_, false) => .ok session
    | (receiver, true) => .ok
      { session with receiver, backward := session.backward ++ [.credit credit] }
  | .report epoch generation =>
    match session.receiver.report epoch generation with
    | none => .error .panic
    | some (receiver, none) => .ok { session with receiver }
    | some (receiver, some report) => { session with receiver }.owe epoch generation report
  | .abandon epoch generation =>
    match session.receiver.abandon epoch generation with
    | none => .error .panic
    | some (receiver, false) => .ok { session with receiver }
    | some (receiver, true) => .ok ({ session with receiver }.settle epoch generation .abandoned)
  | .hear => session.hear
  | .learn => session.learn
  | .receive datagram stated =>
    if datagram ∈ session.datagrams then session.receive datagram stated else .ok session

def acts (acts : List Act) : Except Fault Session := acts.foldlM act new

end Session

end ObjectTransfer.Fec
