/-
Threads and their tokens. A thread gets its token when it first asks for it. A thread on its way out
loses the token it holds, and from then on asking fails; one that has never asked still gets a
token, which goes back to the pool when the thread is over.
-/
import BackoffStack.Status
import BackoffStack.Token.Pool

namespace BackoffStack

/-- Who a thread acts as. -/
inductive Identity where
  /-- A thread that holds a token with this id. -/
  | live (id : Nat)
  /-- A thread whose token is gone. -/
  | exiting
  deriving DecidableEq

/-- The id a thread acts under; all exiting threads share one. -/
def Identity.id : Identity → Nat
  | live id => id
  | exiting => exitingId

/-- The threads that hold a token, and those whose token is gone although they still run. -/
structure Threads where
  pool : TokenPool := {}
  holders : List (Nat × ThreadToken) := []
  dismissed : List Nat := []

namespace Threads

/-- The token a thread holds. -/
def token? (ts : Threads) (t : Nat) : Option ThreadToken :=
  ts.holders.lookup t

/-- The token of thread `t`, allocated now if it has never asked. -/
def ask (ts : Threads) (t : Nat) : Except Status ThreadToken × Threads :=
  match ts.token? t with
  | some token => (.ok token, ts)
  | none =>
    if t ∈ ts.dismissed then
      (.error .threadExiting, ts)
    else
      let (token, pool) := ts.pool.allocate
      (.ok token, { ts with pool, holders := (t, token) :: ts.holders })

/-- Who thread `t` acts as; its token is allocated now if it has never asked. -/
def identify (ts : Threads) (t : Nat) : Identity × Threads :=
  match ts.ask t with
  | (.ok token, ts) => (.live token.id, ts)
  | (.error _, ts) => (.exiting, ts)

/-- Gives back the token that thread `t` holds, if it holds one. -/
def giveBack (ts : Threads) (t : Nat) : Threads :=
  match ts.token? t with
  | some token =>
    { ts with pool := ts.pool.giveBack token.id, holders := ts.holders.filter (·.1 ≠ t) }
  | none => ts

/-- Thread `t` is on its way out: a token it holds goes back, and it gets no other. -/
def beginExit (ts : Threads) (t : Nat) : Threads :=
  match ts.token? t with
  | some _ =>
    let ts := ts.giveBack t
    { ts with dismissed := t :: ts.dismissed }
  | none => ts

/-- Thread `t` is over: a token it got on its way out goes back, and its name is free again. -/
def finishExit (ts : Threads) (t : Nat) : Threads :=
  let ts := ts.giveBack t
  { ts with dismissed := ts.dismissed.filter (· ≠ t) }

end Threads

end BackoffStack
