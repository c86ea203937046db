import Metcalfe.Library.FlatMap
import Metcalfe.Network.Queue

/-!
# The network simulator

`BasicNetwork` of `BasicNetwork.h`: the clock, the table of links and the message queue,
with the operations of its public interface. Times and durations are counts of nanoseconds in 64
bits, and `plus` adds them. `beast::manual_clock` is outside the repository: `set` makes `now` equal
to its argument.

A handler is an arbitrary piece of caller's code. What matters of it is the sequence of
network operations it performs, so a handler is a function from its message and the network
to the list of these operations. `step` and `step_until` invoke an unknown number of
handlers; they are given one handler for each delivery and end with `unfinished` when these
run out. Up to that point they have done no more than a sequence of calls of `step_one`.

`history` is not in the source. It records what has happened, in order, and nothing reads it
except `Policy`, which states what callers may ask for.
-/

namespace Metcalfe.Network

/-- The counts of 64 bits. -/
def Fits (t : Int) : Prop := -2 ^ 63 ≤ t ∧ t < 2 ^ 63

instance (t : Int) : Decidable (Fits t) := inferInstanceAs (Decidable (_ ∧ _))

/-- A sum of a time and a duration. When it overflows it wraps around, as compiled code does; for the
language that is undefined. -/
def plus (time amount : Int) : Int := (time + amount).bmod (2 ^ 64)

theorem plus_of_fits {t d : Int} (h : Fits (t + d)) : plus t d = t + d := by
  obtain ⟨hge, hlt⟩ := h
  exact Int.bmod_eq_of_le_mul_two (by omega) (by omega)

theorem plus_plus (t d₁ d₂ : Int) : plus (plus t d₁) d₂ = plus t (d₁ + d₂) := by
  rw [plus, plus, plus, Int.bmod_add_bmod, add_assoc]

/-- `link_type`. -/
structure LinkType where
  inbound : Bool
  delay : Int
deriving DecidableEq, Repr

inductive Event (P : Type) where
  | connected (from_ to_ : P)
  | disconnected (peer1 peer2 : P)
  | sent (m : Msg P)
  | timerSet (m : Msg P)
  | cancelled (m : Msg P)
  | invoked (m : Msg P)
  | clockSet (now time : Int)
deriving DecidableEq, Repr

structure Net (P : Type) [LinearOrder P] where
  queue : Queue P
  now : Int
  links : P → FlatMap P LinkType
  history : List (Event P)

/-- Why a call does not return. -/
inductive Stop where
  /-- `queue_type::erase` on an entry that is not in the queue. -/
  | eraseAbsent
  /-- `send` dereferenced the end iterator of a link table. -/
  | noLink
  /-- An `assert` of `connect` or `disconnect` failed. -/
  | assertion
  /-- The caller or a handler asked for something the policy excludes. -/
  | excluded
  /-- No handler was given for the next delivery. -/
  | unfinished
deriving DecidableEq, Repr

/-- The operations open to handlers. A `cancel_token` is the entry its iterator denotes. -/
inductive Op (P : Type) where
  | connect (from_ to_ : P) (delay : Int)
  | disconnect (peer1 peer2 : P)
  | send (from_ to_ : P)
  | timerAt (when_ : Int)
  | timerAfter (delay : Int)
  | cancel (token : Msg P)
deriving DecidableEq, Repr

variable {P : Type} [LinearOrder P]

namespace Net

/-- A network as constructed. The epoch of the clock is unspecified. -/
def new (epoch : Int) : Net P := ⟨Queue.new, epoch, fun _ => FlatMap.empty, []⟩

def record (net : Net P) (e : Event P) : Net P := { net with history := net.history ++ [e] }

/-- `clock_.set`. -/
def setClock (net : Net P) (time : Int) : Net P :=
  { net.record (.clockSet net.now time) with now := time }

/-- `queue_.erase`. -/
def erase (net : Net P) (m : Msg P) : Except Stop (Net P) :=
  match net.queue.erase m with
  | some q => .ok { net with queue := q }
  | none => .error .eraseAbsent

def connect (net : Net P) (from_ to_ : P) (delay : Int) : Except Stop (Bool × Net P) :=
  if to_ = from_ then .ok (false, net)
  else
    let r := (net.links from_).emplace to_ ⟨false, delay⟩
    let links := Function.update net.links from_ r.2
    if r.1 = false then .ok (false, { net with links := links })
    else
      let r := (links to_).emplace from_ ⟨true, delay⟩
      let links := Function.update links to_ r.2
      if r.1 = false then .error .assertion
      else .ok (true, { net with links := links }.record (.connected from_ to_))

def disconnect (net : Net P) (peer1 peer2 : P) : Except Stop (Bool × Net P) :=
  let r := (net.links peer1).erase peer2
  let links := Function.update net.links peer1 r.2
  if r.1 = 0 then .ok (false, { net with links := links })
  else
    let r := (links peer2).erase peer1
    let links := Function.update links peer2 r.2
    if r.1 = 0 then .error .assertion
    else
      match net.queue.remove peer1 peer2 with
      | some q =>
        .ok (true, { net with links := links, queue := q }.record (.disconnected peer1 peer2))
      | none => .error .eraseAbsent

def send (net : Net P) (from_ to_ : P) : Except Stop (Net P) :=
  match (net.links from_).find? to_ with
  | some link =>
    let r := net.queue.emplace (some from_) (some to_) (plus net.now link.delay)
    .ok ({ net with queue := r.2 }.record (.sent r.1))
  | none => .error .noLink

/-- `timer`, the overload with a time point. -/
def timerAt (net : Net P) (when_ : Int) : Msg P × Net P :=
  let r := net.queue.emplace none none when_
  (r.1, { net with queue := r.2 }.record (.timerSet r.1))

/-- `timer`, the overload with a duration. -/
def timerAfter (net : Net P) (delay : Int) : Msg P × Net P := net.timerAt (plus net.now delay)

def cancel (net : Net P) (token : Msg P) : Except Stop (Net P) := do
  let net ← net.erase token
  return net.record (.cancelled token)

def apply (net : Net P) : Op P → Except Stop (Net P)
  | .connect from_ to_ delay => return (← net.connect from_ to_ delay).2
  | .disconnect peer1 peer2 => return (← net.disconnect peer1 peer2).2
  | .send from_ to_ => net.send from_ to_
  | .timerAt when_ => .ok (net.timerAt when_).2
  | .timerAfter delay => .ok (net.timerAfter delay).2
  | .cancel token => net.cancel token

end Net

/-- What callers may ask for: `op` for an operation, given the message whose handler asks
for it (`none` for the caller of the network), and `until_` for the time of `step_until`. -/
structure Policy (P : Type) [LinearOrder P] where
  op : Net P → Option (Msg P) → Op P → Bool
  until_ : Net P → Int → Bool

abbrev Handler (P : Type) [LinearOrder P] := Msg P → Net P → List (Op P)

namespace Net

variable (pol : Policy P)

def request (running : Option (Msg P)) (net : Net P) (op : Op P) : Except Stop (Net P) :=
  if pol.op net running op then net.apply op else .error .excluded

/-- `step_one`, with the handler of the first message of the queue. -/
def stepOne (handler : Handler P) (net : Net P) : Except Stop (Bool × Net P) :=
  match net.queue.byWhen with
  | [] => .ok (false, net)
  | m :: _ => do
    let net := (net.setClock m.when_).record (.invoked m)
    let net ← (handler m net).foldlM (request pol (some m)) net
    let net ← net.erase m
    return (true, net)

/-- The loop of `step`. -/
def stepAll : List (Handler P) → Net P → Except Stop (Net P)
  | [], net => if net.queue.byWhen = [] then .ok net else .error .unfinished
  | handler :: handlers, net => do
    let r ← stepOne pol handler net
    if r.1 then stepAll handlers r.2 else return r.2

def step (handlers : List (Handler P)) (net : Net P) : Except Stop (Bool × Net P) :=
  match net.queue.byWhen with
  | [] => .ok (false, net)
  | _ :: _ => do return (true, ← stepAll pol handlers net)

/-- The do-while loop of `step_until`. -/
def stepDue (until_ : Int) : List (Handler P) → Net P → Except Stop (Net P)
  | [], _ => .error .unfinished
  | handler :: handlers, net => do
    let net := (← stepOne pol handler net).2
    match net.queue.byWhen with
    | [] => return net
    | m :: _ => if m.when_ ≤ until_ then stepDue until_ handlers net else return net

def stepUntil (until_ : Int) (handlers : List (Handler P)) (net : Net P) :
    Except Stop (Bool × Net P) :=
  match net.queue.byWhen with
  | [] => .ok (false, net.setClock until_)
  | m :: _ =>
    if m.when_ > until_ then .ok (true, net.setClock until_)
    else do
      let net ← stepDue pol until_ handlers net
      let net := net.setClock until_
      return (decide (net.queue.byWhen ≠ []), net)

def stepFor (amount : Int) (handlers : List (Handler P)) (net : Net P) :
    Except Stop (Bool × Net P) :=
  stepUntil pol (plus net.now amount) handlers net

end Net

/-- The calls open to the owner of the network. -/
inductive Call (P : Type) [LinearOrder P] where
  | op (op : Op P)
  | stepOne (handler : Handler P)
  | step (handlers : List (Handler P))
  | stepUntil (until_ : Int) (handlers : List (Handler P))
  | stepFor (amount : Int) (handlers : List (Handler P))

namespace Net

variable (pol : Policy P)

def call (net : Net P) : Call P → Except Stop (Net P)
  | .op op => request pol none net op
  | .stepOne handler => return (← stepOne pol handler net).2
  | .step handlers => return (← step pol handlers net).2
  | .stepUntil until_ handlers =>
    if pol.until_ net until_ then return (← stepUntil pol until_ handlers net).2
    else .error .excluded
  | .stepFor amount handlers =>
    if pol.until_ net (plus net.now amount) then return (← stepFor pol amount handlers net).2
    else .error .excluded

def run (calls : List (Call P)) (net : Net P) : Except Stop (Net P) :=
  calls.foldlM (call pol) net

end Net

end Metcalfe.Network
