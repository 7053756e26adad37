import A32Assembler.Proofs.Decoding.Core
import A32Assembler.Proofs.Machine.Arithmetic

/-!
# Addresses of transfers

Where a single transfer accesses memory: the base register and a distance from it, in the direction
and at the time that the mode says. A shift of the distance means what it means for an operand.
-/

namespace A32Assembler

open Machine

/-- The distance from the base register. -/
def Displacement.distance (s : State) : Displacement → Word
  | immediate magnitude => magnitude
  | register rm shift field =>
    ((Operand.shifted rm shift field).canonical.evaluate s.read s.flags.c).1

namespace Machine

/-- The address that a transfer accesses, and the value that the base register receives, if any. -/
structure Access where
  address : Word
  base : Option Word
deriving DecidableEq

end Machine

namespace Address

/-- What a transfer accesses in a state. -/
def access (s : State) (a : Address) : Access :=
  let base := s.read a.base
  let distance := a.displacement.distance s
  let moved := if a.mode.down then base - distance else base + distance
  match a.mode.indexing with
  | .offset => ⟨moved, none⟩
  | .preIndex => ⟨moved, some moved⟩
  | .postIndex => ⟨base, some moved⟩

variable {s : State} {base : Register} {offset : Word}

/-- A signed offset is a magnitude and a direction. -/
theorem ofOffset_eq (base : Register) (offset : Word) :
    ofOffset base offset = ⟨base, .immediate (magnitude offset), ⟨.offset, offset.msb⟩⟩ := by
  rw [ofOffset, indexed]
  cases offset.msb <;> rfl

/-- A base register and a signed offset access their sum, also for the least offset, which is its
own magnitude. -/
theorem access_ofOffset : (ofOffset base offset).access s = ⟨s.read base + offset, none⟩ := by
  have back : s.read base - -offset = s.read base + offset := by bv_omega
  rw [ofOffset_eq, access]
  cases negative : offset.msb with
  | true => simp only [if_true, magnitude, negative, Displacement.distance, back]
  | false => simp [magnitude, negative, Displacement.distance]

end Address

end A32Assembler
