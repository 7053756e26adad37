import A32Assembler.Proofs.Branch.Landing

/-!
# Displacements and their range

A displacement is computed from positions that are narrowed to 32 bits first, as signed numbers. As
long as both ends of the way lie below `2 ^ 31` nothing is lost: the displacement is the distance,
and a branch can be turned toward a target exactly if its kind reaches that far. Beyond, the
displacement is the distance modulo `2 ^ 32`, if there is one at all, and the branch still goes to
its target, as addresses have 32 bits.
-/

namespace A32Assembler

open CodeBuffer Encoding Machine

/-- A position as a signed number of 32 bits. -/
def narrowed (position : Nat) : Int := (BitVec.ofNat 32 position).toInt

/-- A number that a signed word can hold. -/
def FitsWord (x : Int) : Prop := -2 ^ 31 ≤ x ∧ x < 2 ^ 31

namespace BranchKind

/-- How far a target lies from where a branch at a position reads the program counter. -/
def distance (kind : BranchKind) (position target : Nat) : Int := target - (position + kind.bias)

/-- The distances that a branch of a kind can hold. -/
def Reaches : BranchKind → Int → Prop
  | near, x => -2 ^ 25 ≤ x ∧ x < 2 ^ 25
  | far, x => FitsWord x

end BranchKind

variable {b b' : CodeBuffer} {c : Condition} {p q target n : Nat} {kind : BranchKind} {link : Bool}
  {offset old w v : Word} {ws : List Word}

/-- Narrowing keeps a position modulo `2 ^ 32`. -/
theorem exists_narrowed_eq (n : Nat) : ∃ k : Int, narrowed n = n + 2 ^ 32 * k := by
  have small := (BitVec.ofNat 32 n).isLt
  rw [narrowed, BitVec.toInt_eq_toNat_cond, BitVec.toNat_ofNat]
  split
  · exact ⟨-(n / 2 ^ 32 : Nat), by omega⟩
  · exact ⟨-(n / 2 ^ 32 : Nat) - 1, by omega⟩

/-- Narrowing keeps what is small. -/
theorem narrowed_of_lt (small : n < 2 ^ 31) : narrowed n = n := by
  rw [narrowed, BitVec.toInt_eq_toNat_cond, BitVec.toNat_ofNat]
  split <;> omega

/-- A word holds a number that fits. -/
theorem fitsWord_toInt (w : Word) : FitsWord w.toInt := ⟨w.le_toInt, w.toInt_lt⟩

/-- There is a displacement unless a sum or a difference overflows; it is the difference of the
narrowed positions. -/
theorem displacement_eq_ok_iff :
    displacement p kind target = .ok offset ↔
      p + kind.bias < positionLimit ∧
        offset.toInt = narrowed target - narrowed (p + kind.bias) := by
  simp only [displacement, bind_eq_ok, pure_eq_ok, narrowed]
  constructor
  · rintro ⟨⟨⟩, bound, ⟨⟩, fits, rfl⟩
    refine ⟨require_eq_ok.mp bound, BitVec.toInt_sub_of_not_ssubOverflow ?_⟩
    rw [require_eq_ok.mp fits]
    decide
  · rintro ⟨bound, difference⟩
    -- the difference is the value of a word, so it did not overflow
    obtain ⟨low, high⟩ := fitsWord_toInt offset
    have fits : BitVec.ssubOverflow (BitVec.ofNat 32 target) (BitVec.ofNat 32 (p + kind.bias)) =
        false := by
      simp only [BitVec.ssubOverflow, ← difference, Bool.or_eq_false_iff, decide_eq_false_iff_not]
      omega
    refine ⟨(), require_eq_ok.mpr bound, (), require_eq_ok.mpr fits, BitVec.eq_of_toInt_eq ?_⟩
    rw [difference, BitVec.toInt_sub_of_not_ssubOverflow (by simp [fits])]

/-- A displacement is the distance if a word can hold that. -/
theorem toInt_displacement_eq_iff (found : displacement p kind target = .ok offset) :
    offset.toInt = kind.distance p target ↔ FitsWord (kind.distance p target) := by
  obtain ⟨-, difference⟩ := displacement_eq_ok_iff.mp found
  obtain ⟨k, goal⟩ := exists_narrowed_eq target
  obtain ⟨l, origin⟩ := exists_narrowed_eq (p + kind.bias)
  obtain ⟨low, high⟩ := fitsWord_toInt offset
  constructor
  · intro same
    exact same ▸ fitsWord_toInt offset
  · rintro ⟨low', high'⟩
    -- both fit a word, and they differ by a multiple of `2 ^ 32`
    unfold BranchKind.distance at *
    omega

/-- Between positions below `2 ^ 31` the displacement is the distance. -/
theorem exists_displacement (near_start : p + kind.bias < 2 ^ 31) (near_goal : target < 2 ^ 31) :
    ∃ offset, displacement p kind target = .ok offset ∧
      offset.toInt = kind.distance p target := by
  have fits : (BitVec.ofInt 32 (kind.distance p target)).toInt = kind.distance p target := by
    apply BitVec.toInt_ofInt_eq_self (by decide) <;>
    · unfold BranchKind.distance
      omega
  refine ⟨_, displacement_eq_ok_iff.mpr ⟨?_, ?_⟩, fits⟩
  · unfold positionLimit
    omega
  · rw [fits, narrowed_of_lt near_start, narrowed_of_lt near_goal, BranchKind.distance]
    omega

/-- A word in the buffer can be read and overwritten. -/
theorem CodeBuffer.HasAt.accessible (there : b.HasAt p (w :: ws)) (aligned : p % 4 = 0)
    (bound : p + 4 < positionLimit) : b.load p = .ok w ∧ ∀ v, ∃ b', b.store p v = .ok b' := by
  obtain ⟨first, -⟩ := hasAt_cons.mp there
  obtain ⟨inside, -⟩ := List.getElem?_eq_some_iff.mp first
  have long := b.length_words
  rw [size] at long
  refine ⟨load_eq_ok.mpr ⟨aligned, bound, first⟩, fun v ↦ ?_⟩
  have located := locate_eq_ok (b := b) (p := ⟨p, rfl, by omega⟩) |>.mpr ⟨aligned, bound⟩
  exact ⟨_, by rw [CodeBuffer.store, located]; rfl⟩

/-- A near branch in the buffer can be turned exactly if the displacement is in its range. -/
theorem exists_patchNear (there : b.HasAt p (w :: ws)) (aligned : p % 4 = 0)
    (bound : p + 4 < positionLimit) :
    (∃ b', patchNear b p target offset = .ok b') ↔ InBranchRange offset := by
  obtain ⟨loaded, stored⟩ := there.accessible aligned bound
  constructor
  · rintro ⟨b', patched⟩
    obtain ⟨⟨⟩, range, -⟩ := bind_eq_ok.mp patched
    exact require_eq_ok.mp range
  · intro range
    obtain ⟨b', stored⟩ := stored (withBranchField w (offset.extractLsb' 2 24))
    refine ⟨b', ?_⟩
    simp only [patchNear, branchField, bind_eq_ok, pure_eq_ok]
    exact ⟨(), require_eq_ok.mpr range, w, loaded, _, ⟨(), require_eq_ok.mpr range, rfl⟩, stored⟩

/-- A far branch in the buffer can be turned. -/
theorem exists_patchFar (there : b.HasAt p (w :: v :: ws)) (aligned : p % 4 = 0)
    (bound : p + 8 < positionLimit) : ∃ b', patchFar b p offset = .ok b' := by
  obtain ⟨loaded, stored⟩ := there.accessible aligned (by omega)
  obtain ⟨loaded', -⟩ := (hasAt_cons.mp there).2.accessible (by omega) bound
  obtain ⟨b1, stored⟩ := stored (withWideImmediate w (offset.extractLsb' 0 16))
  obtain ⟨-, behind⟩ := hasAt_cons.mp (there.store stored)
  obtain ⟨-, stored'⟩ := behind.accessible (by omega) bound
  obtain ⟨b2, stored'⟩ := stored' (withWideImmediate v (offset.extractLsb' 16 16))
  refine ⟨b2, ?_⟩
  simp only [patchFar, bind_eq_ok]
  exact ⟨w, loaded, v, loaded', b1, stored, stored'⟩

/-- A branch in the buffer can be turned toward a target exactly if there is a displacement, and for
a near branch one in its range. -/
theorem exists_patchBranch (there : b.HasAt p (branchWords c kind link old))
    (aligned : p % 4 = 0) :
    (∃ b', patchBranch b p kind target = .ok b') ↔
      ∃ offset, displacement p kind target = .ok offset ∧
        (kind = .near → InBranchRange offset) := by
  simp only [patchBranch, bind_eq_ok]
  rw [exists_comm]
  refine exists_congr fun offset ↦ ?_
  rw [exists_and_left]
  refine and_congr_right fun found ↦ ?_
  obtain ⟨bound, -⟩ := displacement_eq_ok_iff.mp found
  cases kind with
  | near =>
    have bound : p + 8 < positionLimit := bound
    simpa using exists_patchNear there aligned (by omega)
  | far =>
    have bound : p + 16 < positionLimit := bound
    simpa using exists_patchFar there aligned (by omega)

/-- What a branch reaches with a displacement: everything, if it is far. -/
theorem reaches_toInt : kind.Reaches offset.toInt ↔ (kind = .near → InBranchRange offset) := by
  cases kind with
  | near => simp [BranchKind.Reaches, InBranchRange]
  | far => simpa [BranchKind.Reaches] using fitsWord_toInt offset

/-- A branch that was turned goes to its target where its condition holds; a near branch can only go
to whole words. -/
theorem run_patchBranch {u : FloatUnit} {m : CodeMemory} {base : Word} {s : State}
    (there : b.HasAt p (branchWords c kind link old)) (aligned : p % 4 = 0)
    (patched : patchBranch b p kind target = .ok b') (whole : kind = .near → target % 4 = 0)
    (held : m.Holds base b'.words) (at_branch : s.core .pc = base + BitVec.ofNat 32 p)
    (holds : c.holds s.flags = true) :
    ∃ t, run u m (kind.wordCount link) s = some t ∧
      t.core .pc = base + BitVec.ofNat 32 target := by
  obtain ⟨offset, distance, range, turned⟩ := hasAt_patchBranch there patched
  have reach : kind = .near → InBranchRange offset ∧ offset.extractLsb' 0 2 = 0#2 := by
    intro near
    refine ⟨range near, ?_⟩
    rw [distance, near]
    exact aligned_displacement aligned (whole near)
  obtain ⟨t, runs, pc, -⟩ := run_branchWords (u := u) reach holds
    (at_branch ▸ held.at_position turned aligned)
  refine ⟨t, runs, ?_⟩
  rw [pc, at_branch, distance, BitVec.ofNat_add]
  bv_omega

/-- A branch in the buffer can be turned exactly if there is a displacement and its kind reaches as
far. -/
theorem turns_iff (there : b.HasAt p (branchWords c kind link old)) (aligned : p % 4 = 0) :
    (∃ b', patchBranch b p kind target = .ok b') ↔
      ∃ offset, displacement p kind target = .ok offset ∧ kind.Reaches offset.toInt := by
  simp only [exists_patchBranch there aligned, reaches_toInt]

/-- Between positions below `2 ^ 31`, a branch can be turned exactly if its kind reaches as far as
the distance. -/
theorem turns_iff_of_lt (there : b.HasAt p (branchWords c kind link old)) (aligned : p % 4 = 0)
    (near_start : p + kind.bias < 2 ^ 31) (near_goal : target < 2 ^ 31) :
    (∃ b', patchBranch b p kind target = .ok b') ↔ kind.Reaches (kind.distance p target) := by
  obtain ⟨offset, found, same⟩ : ∃ offset, displacement p kind target = .ok offset ∧
      offset.toInt = kind.distance p target := exists_displacement near_start near_goal
  rw [turns_iff there aligned, found]
  simp only [Except.ok.injEq, exists_eq_left', same]

/-- For all positions and targets: the displacement is the difference of the narrowed positions, and
there is none exactly if a sum or this difference overflows; it is the distance exactly if a word
can hold the distance, and between positions below `2 ^ 31` it always is. A branch that lies in the
buffer can be turned exactly if there is a displacement and its kind reaches as far. So between
positions below `2 ^ 31` a near branch can be turned exactly for distances from `-2 ^ 25` up to but
not including `2 ^ 25`, and a far branch always. A branch that was turned goes to its target, modulo
the size of the address space. -/
theorem branch_turns_to_target (kind : BranchKind) (p target : Nat) :
    (∀ offset, displacement p kind target = .ok offset ↔
      p + kind.bias < positionLimit ∧
        offset.toInt = narrowed target - narrowed (p + kind.bias)) ∧
    (∀ offset, displacement p kind target = .ok offset →
      (offset.toInt = kind.distance p target ↔ FitsWord (kind.distance p target))) ∧
    (p + kind.bias < 2 ^ 31 → target < 2 ^ 31 →
      ∃ offset, displacement p kind target = .ok offset ∧
        offset.toInt = kind.distance p target) ∧
    ∀ (b : CodeBuffer) (c : Condition) (link : Bool) (old : Word),
      b.HasAt p (branchWords c kind link old) → p % 4 = 0 →
      ((∃ b', patchBranch b p kind target = .ok b') ↔
        ∃ offset, displacement p kind target = .ok offset ∧ kind.Reaches offset.toInt) ∧
      (p + kind.bias < 2 ^ 31 → target < 2 ^ 31 →
        ((∃ b', patchBranch b p kind target = .ok b') ↔ kind.Reaches (kind.distance p target))) ∧
      ∀ b', patchBranch b p kind target = .ok b' → (kind = .near → target % 4 = 0) →
        ∀ (u : FloatUnit) (m : CodeMemory) (base : Word) (s : State), m.Holds base b'.words →
          s.core .pc = base + BitVec.ofNat 32 p → c.holds s.flags = true →
          ∃ t, run u m (kind.wordCount link) s = some t ∧
            t.core .pc = base + BitVec.ofNat 32 target := by
  refine ⟨fun _ ↦ displacement_eq_ok_iff, fun _ ↦ toInt_displacement_eq_iff, exists_displacement,
    fun b c link old there aligned ↦ ⟨turns_iff there aligned, turns_iff_of_lt there aligned, ?_⟩⟩
  intro b' patched whole u m base s held at_branch holds
  exact run_patchBranch there aligned patched whole held at_branch holds

/-- A near branch at the start of the code that is not turned yet. -/
def openAtStart : CodeBuffer := CodeBuffer.empty.emitAll (branchWords .al .near false 0)

/-- The branch lies at the start. -/
theorem hasAt_openAtStart : openAtStart.HasAt 0 (branchWords .al .near false 0) := hasAt_emitAll

/-- The last target that the branch reaches, and the first that it does not. -/
theorem near_branch_at_its_limit :
    (∃ b', patchBranch openAtStart 0 .near 0x2000004 = .ok b') ∧
      ¬ ∃ b', patchBranch openAtStart 0 .near 0x2000008 = .ok b' := by
  have limit (target : Nat) (small : target < 2 ^ 31) :
      (∃ b', patchBranch openAtStart 0 .near target = .ok b') ↔
        BranchKind.near.Reaches (BranchKind.near.distance 0 target) := by
    obtain ⟨-, -, -, turns⟩ := branch_turns_to_target .near 0 target
    obtain ⟨-, turns, -⟩ := turns openAtStart .al false 0 hasAt_openAtStart rfl
    exact turns (by decide) small
  rw [limit _ (by decide), limit _ (by decide)]
  simp [BranchKind.Reaches, BranchKind.distance, BranchKind.bias]

/-- Across `2 ^ 31` there is no displacement for a distance of eight, there is one for a distance
that no word can hold, and a near branch is turned toward a target that lies `2 ^ 32` away. -/
theorem narrowing_misjudges_distances :
    (BranchKind.near.distance 0x7ffffff0 0x80000000 = 8 ∧
      displacement 0x7ffffff0 .near 0x80000000 = .error (.overflow .subtraction)) ∧
    (BranchKind.near.distance 0 0x100000000 = 0xfffffff8 ∧
      displacement 0 .near 0x100000000 = .ok (-8)) ∧
    BranchKind.near.distance 0 0x100000008 = 0x100000000 ∧
      ∃ b', patchBranch openAtStart 0 .near 0x100000008 = .ok b' := by
  have found : displacement 0 .near 0x100000008 = .ok 0 := rfl
  refine ⟨⟨by decide, rfl⟩, ⟨by decide, rfl⟩, by decide, ?_⟩
  exact (exists_patchBranch hasAt_openAtStart rfl).mpr ⟨0, found, fun _ ↦ by decide⟩

end A32Assembler
