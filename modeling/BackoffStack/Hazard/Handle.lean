/-
Handles: which store a version was published in, and how many times that store had been released
before. A handle travels as one word, the store's id in its low half and the sequence in its high
half.
-/

namespace BackoffStack

/-- Number of ids and of sequences that a word has room for. -/
def handleHalf : Nat := UInt32.size

/-- What is given back to end one acquisition. -/
structure Handle where
  tid : Nat
  sequence : UInt32
  deriving DecidableEq

namespace Handle

/-- The handle that a word stands for. Every word stands for one. -/
def ofWord (w : UInt64) : Handle where
  tid := w.toNat % handleHalf
  sequence := UInt32.ofNat (w.toNat / handleHalf)

/-- The word of a handle. -/
def toWord (h : Handle) : UInt64 :=
  UInt64.ofNat (h.tid + h.sequence.toNat * handleHalf)

/-- No word is lost. -/
theorem toWord_ofWord (w : UInt64) : (ofWord w).toWord = w := by
  have := w.toNat_lt
  apply UInt64.toNat_inj.1
  simp [ofWord, toWord, handleHalf, UInt32.size, UInt64.toNat_ofNat']
  omega

/-- No handle is lost whose id fits its half. -/
theorem ofWord_toWord (h : Handle) (ht : h.tid < handleHalf) : ofWord h.toWord = h := by
  obtain ⟨tid, sequence⟩ := h
  have := sequence.toNat_lt
  simp [ofWord, toWord, handleHalf, UInt32.size, UInt64.toNat_ofNat'] at *
  constructor
  · omega
  · apply UInt32.toNat_inj.1
    simp
    omega

end Handle

end BackoffStack
