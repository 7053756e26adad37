import A32Assembler.Proofs.Branch.History
import A32Assembler.Proofs.Float.Unit

/-!
# Where branches go

Running the code of an assembler: a branch whose label is bound goes to the position of its label,
wherever the code lies in memory and however the script came to emit, bind and patch.
-/

namespace A32Assembler

open Machine

variable {m : CodeMemory} {base : Word} {b : CodeBuffer} {p target : Nat} {ws : List Word}

/-- Memory that holds the code holds its parts by their positions. -/
theorem CodeMemory.Holds.at_position (held : m.Holds base b.words) (there : b.HasAt p ws)
    (aligned : p % 4 = 0) : m.Holds (base + BitVec.ofNat 32 p) ws := by
  intro i w hw
  rw [BitVec.add_assoc, ← BitVec.ofNat_add, show p + 4 * i = 4 * (p / 4 + i) by omega]
  exact held (p / 4 + i) w (there i w hw)

/-- In every assembler that a script can lead to, and for every branch emitted since the last
`clear` whose label is bound: run where its condition holds, the branch goes to the position of the
label. With link it leaves the address behind its words in `LR`. It changes no core register but
`PC`, `LR` if it links and `IP` if it is far. An assembler inside a scope has the code and the
labels of the script that closes its scopes there. -/
theorem branch_reaches_label {settings : Settings} {steps : List Step} {records : List Record}
    {a : Assembler} {e : EmittedBranch}
    (ran : runSteps (.start settings) steps = (records, some a))
    (emitted : e ∈ branchesOf (.start settings) [] steps)
    (bound : a.labels.position? e.label = .ok (some target))
    {u : FloatUnit} {s : State} (held : m.Holds base a.buffer.words)
    (at_branch : s.core .pc = base + BitVec.ofNat 32 e.position)
    (holds : e.condition.holds s.flags = true) :
    ∃ t, run u m e.wordCount s = some t ∧
      t.core .pc = base + BitVec.ofNat 32 target ∧
      (e.link = true → t.core .lr = base + BitVec.ofNat 32 e.stop) ∧
      s.Keeps t (e.kind.changed e.link) [] ∧ t.flags = s.flags := by
  have inv := Tracks.start.script ran
  have found := LabelTable.position?_eq_ok.mp bound
  obtain ⟨offset, distance, range, there⟩ := inv.aimed e emitted target found
  have aligned := inv.laid.aligned e emitted
  have reach : e.kind = .near → Encoding.InBranchRange offset ∧ offset.extractLsb' 0 2 = 0#2 := by
    intro near
    refine ⟨range near, ?_⟩
    rw [distance, near]
    exact aligned_displacement aligned (inv.aligned e.label target found)
  have held_branch := held.at_position there aligned
  rw [← at_branch] at held_branch
  obtain ⟨t, runs, pc, lr, keeps, flags⟩ := run_branchWords (u := u) reach holds held_branch
  refine ⟨t, runs, ?_, fun link ↦ ?_, keeps, flags⟩
  · rw [pc, at_branch, distance, BitVec.ofNat_add]
    bv_omega
  · rw [lr link, at_branch, BitVec.add_assoc, ← BitVec.ofNat_add]
    rfl

/-- A near branch and a conditional far branch with link, both to one label behind them. -/
def twoBranches : List Step :=
  [.call (.ok .newLabel), .call (.ok (.branch false ⟨0⟩)), .call (.ok (.setFarBranches true)),
    .scope .ne [.call (.ok (.branch true ⟨0⟩))], .call (.ok (.word 0xe320f000)),
    .call (.ok (.bind ⟨0⟩))]

/-- The second of them, run from address `0x8004`. -/
theorem far_call_reaches_label : ∃ a, (runSteps (.start (.near .full)) twoBranches).2 = some a ∧
    ∃ t, run .reference (.ofWords 0x8000 a.buffer.words) 4
        ⟨fun r ↦ if r = .pc then 0x8004 else 0, ⟨false, false, false, false⟩, fun _ ↦ 0,
          fun _ ↦ none⟩ = some t ∧
      t.core .pc = 0x8018 ∧ t.core .lr = 0x8014 := by
  have facts : (runSteps (.start (.near .full)) twoBranches).2.map
      (fun a ↦ (a.labels.states[0]?, a.buffer.words.length)) = some (some (.bound 24), 6) := by
    decide +kernel
  obtain ⟨a, ran, facts⟩ := Option.map_eq_some_iff.mp facts
  obtain ⟨bound, length⟩ := Prod.mk.inj facts
  have position : a.labels.position? ⟨0⟩ = .ok (some 24) :=
    LabelTable.position?_eq_ok.mpr (LabelTable.state_eq_ok.mpr bound)
  have held : CodeMemory.Holds (.ofWords 0x8000 a.buffer.words) 0x8000 a.buffer.words :=
    CodeMemory.holds_ofWords (by rw [length]; decide)
  obtain ⟨t, runs, pc, lr, -, -⟩ := branch_reaches_label (e := ⟨4, .far, true, .ne, ⟨0⟩⟩)
    (u := .reference)
    (s := ⟨fun r ↦ if r = .pc then 0x8004 else 0, ⟨false, false, false, false⟩, fun _ ↦ 0,
      fun _ ↦ none⟩)
    (Prod.ext rfl ran) (by decide +kernel) position held rfl rfl
  exact ⟨a, ran, t, runs, pc, lr rfl⟩

end A32Assembler
