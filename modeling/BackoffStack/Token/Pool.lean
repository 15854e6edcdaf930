/-
Tokens: a dense id, reused after its thread is over, and a generation that is never reused. Ids that
were given back are handed out again, the latest first, before a new one is made.
-/

namespace BackoffStack

/-- The id under which threads act whose own token is gone. No token has it. -/
def exitingId : Nat := 0

/-- What a thread is known by: the id of one allocation and its generation. -/
structure ThreadToken where
  id : Nat
  generation : Nat
  deriving DecidableEq

/-- The ids given back, the latest first, and the numbers that come next. -/
structure TokenPool where
  free : List Nat := []
  nextId : Nat := exitingId + 1
  nextGeneration : Nat := 1

namespace TokenPool

/-- Takes the id given back last, or else a new one, under a new generation. -/
def allocate (p : TokenPool) : ThreadToken × TokenPool :=
  match p.free with
  | id :: free => (⟨id, p.nextGeneration⟩, { p with free, nextGeneration := p.nextGeneration + 1 })
  | [] =>
    (⟨p.nextId, p.nextGeneration⟩,
      { p with nextId := p.nextId + 1, nextGeneration := p.nextGeneration + 1 })

/-- Takes an id back. -/
def giveBack (p : TokenPool) (id : Nat) : TokenPool :=
  { p with free := id :: p.free }

end TokenPool

end BackoffStack
