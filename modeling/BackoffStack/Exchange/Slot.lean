/-
The slot in which a push and a pop meet. It is one word: the address of the envelope that holds an
offer, with the state of the slot in the low bits, which an address leaves free. A pop offers no
value; its marker is the null address.
-/

namespace BackoffStack

/-- Who is in a slot. -/
inductive SlotState where
  /-- Nobody. -/
  | empty
  /-- One caller, which waits for a partner. -/
  | waiting
  /-- A caller and the partner that joined it. -/
  | busy
  deriving DecidableEq

namespace SlotState

/-- The low bits of a word in this state. -/
def code : SlotState → Nat
  | empty => 0
  | waiting => 1
  | busy => 2

/-- The state that low bits stand for. -/
def ofCode : Nat → SlotState
  | 0 => empty
  | 1 => waiting
  | _ => busy

end SlotState

/-- Where an envelope lies. -/
abbrev Address := Nat

/-- The address of no envelope. -/
def nullAddress : Address := 0

/-- Envelopes lie at multiples of this. -/
def alignment : Nat := 64

/-- What a slot holds. -/
abbrev Word := Nat

namespace Word

/-- The word of an address and a state. -/
def compose (address : Address) (state : SlotState) : Word := address ||| state.code

/-- The address in a word. -/
def address (w : Word) : Address := w >>> 2 <<< 2

/-- The state in a word. -/
def state (w : Word) : SlotState := SlotState.ofCode (w &&& 3)

/-- The word of a slot that nobody is in. -/
def empty : Word := 0

/-- The two low bits are free in an address, so composing adds. -/
theorem compose_eq (a : Address) (s : SlotState) (h : 4 ∣ a) : compose a s = a + s.code := by
  obtain ⟨k, rfl⟩ := h
  have hs : s.code < 2 ^ 2 := by cases s <;> decide
  exact (Nat.two_pow_add_eq_or_of_lt hs k).symm

theorem address_compose (a : Address) (s : SlotState) (h : 4 ∣ a) :
    (compose a s).address = a := by
  have hs : s.code < 4 := by cases s <;> decide
  obtain ⟨k, rfl⟩ := h
  have hk : (4 * k + s.code) / 2 ^ 2 * 2 ^ 2 = 4 * k := by omega
  rw [compose_eq _ s (Nat.dvd_mul_right 4 k), address, Nat.shiftRight_eq_div_pow,
    Nat.shiftLeft_eq, hk]

theorem state_compose (a : Address) (s : SlotState) (h : 4 ∣ a) : (compose a s).state = s := by
  have hs : s.code < 4 := by cases s <;> decide
  obtain ⟨k, rfl⟩ := h
  have hk : (4 * k + s.code) &&& 3 = s.code := by
    rw [show 3 = 2 ^ 2 - 1 from rfl, Nat.and_two_pow_sub_one_eq_mod]
    omega
  rw [compose_eq _ s (Nat.dvd_mul_right 4 k), state, hk]
  cases s <;> rfl

end Word

/-- A slot, and the envelopes of the offers made there that nobody has opened yet. -/
structure Slot (α : Type) where
  word : Word := Word.empty
  envelopes : List (Address × α) := []

namespace Slot

variable {α : Type}

instance : Inhabited (Slot α) := ⟨{}⟩

/-- Sets the word to `new` if it is `old`. -/
def compareAndSet? (s : Slot α) (old new : Word) : Option (Slot α) :=
  if s.word = old then some { s with word := new } else none

/-- Sets the word. -/
def setWord (s : Slot α) (w : Word) : Slot α := { s with word := w }

/-- Whether an envelope lies at an address. -/
def occupied (s : Slot α) (a : Address) : Bool := s.envelopes.any (·.1 == a)

/-- The lowest address at which no envelope lies. -/
def freeAddress (s : Slot α) : Address :=
  let candidates := (List.range (s.envelopes.length + 1)).map fun k => alignment * (k + 1)
  (candidates.find? fun a => !s.occupied a).getD alignment

/-- Puts an offer into an envelope at `a`. A pop has nothing to put there. -/
def enclose (s : Slot α) (a : Address) : Option α → Address × Slot α
  | some v => (a, { s with envelopes := (a, v) :: s.envelopes })
  | none => (nullAddress, s)

/-- Opens the envelope at `a`, which is gone afterwards. At the null address there is none. -/
def takeOut (s : Slot α) (a : Address) : Option α × Slot α :=
  if a = nullAddress then
    (none, s)
  else
    (s.envelopes.lookup a, { s with envelopes := s.envelopes.filter (·.1 ≠ a) })

end Slot

end BackoffStack
