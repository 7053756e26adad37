import A32Assembler.Proofs.Sequence.Scratch

/-!
# Loading floating-point constants

A constant is loaded as a pattern of bits, so a NaN keeps its payload and a zero its sign. A pattern
with an 8-bit form is expanded by the machine, and any other comes from core registers: from `IP`,
or its low word from a scratch register and its high word from `IP`.
-/

namespace A32Assembler

open Machine

namespace Sequence

/-- `sd` holds the number with pattern `value`, the other singles, the half of its double among
them, hold what they held, and only `IP` has changed besides; it has not if eight bits stand for the
number. -/
structure SingleLoaded (sd : SRegister) (value : Word) (s t : State) : Prop where
  single : t.single sd = value
  others : ∀ f, f ≠ sd → t.single f = s.single f
  flags : t.flags = s.flags
  keeps : s.Keeps t [.ip] [sd.container]
  spares : (∃ imm8, Single.expand imm8 = value) → s.Keeps t [] [sd.container]

/-- `dd` holds the number with pattern `value`, and only `scratch` and `IP` have changed besides;
they have not if eight bits stand for the number. -/
structure DoubleLoaded (dd : DRegister) (value : Doubleword) (scratch : Register) (s t : State) :
    Prop where
  loaded : Loaded dd value scratch s t
  spares : (∃ imm8, Double.expand imm8 = value) → s.Keeps t [] [dd]

variable {u : FloatUnit} {c : Condition} {s : State}

/-- A constant of eight bits can be loaded into every register that exists. -/
theorem exists_moveImmediate {p : Precision} {d : FloatRegister p} (inside : d.number < 32)
    (imm8 : Byte) : ∃ w, (Instruction.float (.moveImmediate d imm8)).encode c = .ok w := by
  obtain ⟨x, split⟩ := exists_split inside
  simp only [Instruction.encode, FloatInstruction.encode, split]
  exact ⟨_, rfl⟩

section Single

variable {sd : SRegister} {value : Word}

/-- A single that one instruction loads. -/
theorem single_at_once {imm8 : Byte} {w : Word} (found : Single.immediate? value = some imm8)
    (encoded : (Instruction.float (.moveImmediate sd imm8)).encode c = .ok w)
    (holds : c.holds s.flags) : ∃ t, Completes u [w] s t ∧ SingleLoaded sd value s t := by
  have decoded := Decode.decodeAny_encode (i := .float (.moveImmediate sd imm8)) trivial encoded
  have performed : (Instruction.float (.moveImmediate sd imm8)).perform u s =
      some (s.writeSingle sd value).advance := by
    rw [← Single.expand_of_immediate? found]
    rfl
  have spared : s.Keeps (s.writeSingle sd value).advance [] [sd.container] :=
    (State.keeps_writeSingle rfl).advance
  refine ⟨_, .single decoded ((if_pos holds).trans performed) (by simp), ?_⟩
  exact {
    single := by simp
    others := fun f other ↦ by simp [State.single_writeSingle_of_ne other]
    flags := rfl
    keeps := spared.mono (List.nil_subset _) (List.Subset.refl _)
    spares := fun _ ↦ spared }

/-- A single that is moved from `IP`, where the constant is loaded first. -/
theorem single_by_core (inside : sd.number < 32) (wide : Single.immediate? value = none) :
    (issueCore c (constant .ip value) ++ issue c [.float (.moveCore false sd .ip)]).HasEffect u
      fun s t ↦ c.holds s.flags → SingleLoaded sd value s t := by
  refine HasEffect.append (constant_effect (by decide)) (.moveToSingle inside (by decide)) ?_
  rintro s r _ first rfl holds
  obtain ⟨core, flags, keeps⟩ := first holds
  have same (f : SRegister) : r.single f = s.single f := by
    simp only [State.single, keeps.double _ List.not_mem_nil]
  rw [if_pos (by rwa [flags]), core]
  exact {
    single := by simp
    others := fun f other ↦ by simp [State.single_writeSingle_of_ne other, same]
    flags := flags
    keeps := (keeps.andThen (State.keeps_writeSingle rfl)).advance
    spares := by
      rintro ⟨imm8, rfl⟩
      cases wide.symm.trans (Single.immediate?_expand imm8) }

/-- Loading a single. -/
theorem loadSingle_exact (value : Word) (inside : sd.number < 32) :
    ∃ ws, (loadSingle c sd value).words = .ok ws ∧
      (Contract.always (SingleLoaded sd value)).Met u c ws := by
  unfold loadSingle
  split
  · next imm8 found =>
    obtain ⟨w, encoded⟩ := exists_moveImmediate (c := c) inside imm8
    refine ⟨[w], words_issue_cons.mpr ⟨w, [], encoded, words_issue_nil.mpr rfl, rfl⟩, ?_⟩
    exact fun s holds _ ↦ single_at_once found encoded holds
  · next wide =>
    obtain ⟨ws, spelled, runs⟩ := single_by_core (u := u) (c := c) inside wide
    exact ⟨ws, spelled, .of_hasEffect spelled ⟨ws, spelled, runs⟩⟩

end Single

section Double

variable {dd : DRegister} {scratch : Register}

/-- Loading a double has words. -/
theorem exists_words_loadDouble (value : Doubleword) (inside : dd.number < 32)
    (low : scratch.number < 15) (other : scratch ≠ .ip) :
    ∃ ws, (loadDouble c dd value scratch).words = .ok ws := by
  unfold loadDouble
  split
  · next imm8 _ =>
    obtain ⟨w, encoded⟩ := exists_moveImmediate (c := c) inside imm8
    exact ⟨[w], words_issue_cons.mpr ⟨w, [], encoded, words_issue_nil.mpr rfl, rfl⟩⟩
  · obtain ⟨vs, halves, -⟩ := halves_effect (u := .reference) (c := c) value low other
    obtain ⟨d, split⟩ := exists_split inside
    obtain ⟨r, code⟩ := Register.exists_code (r := scratch) (by bv_omega)
    have encoded : ∃ w, (Instruction.float (.movePair false dd scratch .ip)).encode c = .ok w := by
      simp only [Instruction.encode, FloatInstruction.encode, Encoding.vfpMovePair, split, code]
      exact ⟨_, rfl⟩
    obtain ⟨w, encoded⟩ := encoded
    rw [guarded, if_pos other]
    exact ⟨_, words_append.mpr ⟨vs, [w], halves,
      words_issue_cons.mpr ⟨w, [], encoded, words_issue_nil.mpr rfl, rfl⟩, rfl⟩⟩

/-- Loading a double. -/
theorem loadDouble_exact (value : Doubleword) (inside : dd.number < 32)
    (low : scratch.number < 15) (other : scratch ≠ .ip) :
    ∃ ws, (loadDouble c dd value scratch).words = .ok ws ∧
      (Contract.always (DoubleLoaded dd value scratch)).Met u c ws := by
  obtain ⟨ws, spelled⟩ := exists_words_loadDouble (c := c) value inside low other
  refine ⟨ws, spelled, fun s holds possible ↦ ?_⟩
  cases found : Double.immediate? value with
  | some imm8 =>
    simp only [loadDouble, found] at spelled
    obtain ⟨w, vs, encoded, rest, rfl⟩ := words_issue_cons.mp spelled
    cases words_issue_nil.mp rest
    obtain ⟨t, completes, double, flags, keeps⟩ := loaded_at_once (u := u) found encoded holds
    refine ⟨t, completes, ⟨double, flags, ?_⟩, fun _ ↦ keeps⟩
    exact keeps.mono (List.nil_subset _) (List.Subset.refl _)
  | none =>
    obtain ⟨t, completes, loaded⟩ := loadDouble_met (u := u) low spelled s holds possible
    refine ⟨t, completes, loaded, ?_⟩
    rintro ⟨imm8, rfl⟩
    cases found.symm.trans (Double.immediate?_expand imm8)

end Double

end Sequence

/-- Loading a floating-point constant is accepted for every pattern and every register that can hold
it, and the code that it appends leaves exactly that pattern in the register. Besides, only `IP`
and, for a double, the scratch register change, and these do not either if eight bits stand for the
number. -/
theorem float_constants_exact (u : FloatUnit) (a : Assembler) :
    (∀ (sd : SRegister) (value : Word), sd.number < 32 →
      ∃ ws, a.apply (.expand (.loadSingle sd value)) = .ok (.nothing, a.append ws) ∧
        (Contract.always (Sequence.SingleLoaded sd value)).Met u a.condition ws) ∧
    ∀ (dd : DRegister) (value : Doubleword) (scratch : Register), dd.number < 32 →
      scratch.number < 15 → scratch ≠ .ip →
      ∃ ws, a.apply (.expand (.loadDouble dd value scratch)) = .ok (.nothing, a.append ws) ∧
        (Contract.always (Sequence.DoubleLoaded dd value scratch)).Met u a.condition ws := by
  constructor
  · intro sd value inside
    obtain ⟨ws, spelled, met⟩ := Sequence.loadSingle_exact value inside
    exact ⟨ws, Sequence.apply_expand spelled, met⟩
  · intro dd value scratch inside low other
    obtain ⟨ws, spelled, met⟩ := Sequence.loadDouble_exact value inside low other
    exact ⟨ws, Sequence.apply_expand spelled, met⟩

/-- A signalling NaN goes to `S31` through `IP`, a NaN with a payload to `D31` through `LR` and
`IP`, and a half to `D16` at once. -/
theorem nans_and_half_loaded :
    (∃ ws, (Assembler.start (.near .full)).apply (.expand (.loadSingle ⟨31⟩ 0x7f800001)) =
        .ok (.nothing, (Assembler.start (.near .full)).append ws) ∧
      (Contract.always (Sequence.SingleLoaded ⟨31⟩ 0x7f800001)).Met .reference .al ws) ∧
    (∃ ws, (Assembler.start (.near .full)).apply
        (.expand (.loadDouble ⟨31⟩ 0xfff0000000000123 .lr)) =
        .ok (.nothing, (Assembler.start (.near .full)).append ws) ∧
      (Contract.always (Sequence.DoubleLoaded ⟨31⟩ 0xfff0000000000123 .lr)).Met .reference .al ws) ∧
    ∃ ws, (Assembler.start (.near .full)).apply
        (.expand (.loadDouble ⟨16⟩ 0x3fe0000000000000 .sp)) =
        .ok (.nothing, (Assembler.start (.near .full)).append ws) ∧
      (Contract.always (Sequence.DoubleLoaded ⟨16⟩ 0x3fe0000000000000 .sp)).Met .reference .al ws ∧
      ∃ imm8, Double.expand imm8 = 0x3fe0000000000000 := by
  obtain ⟨single, double⟩ := float_constants_exact .reference (Assembler.start (.near .full))
  obtain ⟨ws, applied, met⟩ :=
    double ⟨16⟩ 0x3fe0000000000000 .sp (by decide) (by decide) (by decide)
  refine ⟨single ⟨31⟩ _ (by decide), ?_, ws, applied, met, 0x60, by decide⟩
  exact double ⟨31⟩ _ .lr (by decide) (by decide) (by decide)

end A32Assembler
