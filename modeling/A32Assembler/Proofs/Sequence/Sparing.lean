import A32Assembler.Proofs.Division.Fallback
import A32Assembler.Proofs.Sequence.Constant

/-!
# Registers that code never writes

A sequence can restore a register that it has overwritten. One that spares a register does not write
it at all: each of its words, run from any state, leaves the register as it was. So does the code
that loads a constant or divides, with every register but its own.
-/

namespace A32Assembler

open Machine

/-- The word can be run from every state, and leaves the registers of a list alone. -/
def Word.Spares (u : FloatUnit) (kept : List Register) (w : Word) : Prop :=
  ∀ s, ∃ t, Executes u [w] s t ∧ ∀ r ∈ kept, t.core r = s.core r

namespace Sequence

/-- A sequence has words, and each of them leaves the registers of a list alone. -/
def Spares (u : FloatUnit) (kept : List Register) (q : Sequence) : Prop :=
  ∃ ws, q.words = .ok ws ∧ ∀ w ∈ ws, Word.Spares u kept w

namespace Spares

variable {u : FloatUnit} {kept : List Register} {p q : Sequence} {c : Condition} {i : Instruction}
  {rd : Register} {effect : State → State → Prop}

/-- No instructions. -/
theorem nil : Spares u kept [] := ⟨[], rfl, by simp⟩

/-- Sequences in a row. -/
theorem append (first : Spares u kept q) (second : Spares u kept p) : Spares u kept (q ++ p) := by
  obtain ⟨ws, spelled, spares⟩ := first
  obtain ⟨vs, spelled', spares'⟩ := second
  refine ⟨ws ++ vs, words_append.mpr ⟨ws, vs, spelled, spelled', rfl⟩, fun w mem ↦ ?_⟩
  exact (List.mem_append.mp mem).elim (spares w) (spares' w)

/-- One instruction, by its effect. -/
theorem single (has : (issue c [i]).HasEffect u effect)
    (keeps : ∀ s t, effect s t → ∀ r ∈ kept, t.core r = s.core r) :
    Spares u kept (issue c [i]) := by
  obtain ⟨ws, spelled, runs⟩ := has
  obtain ⟨w, vs, -, rest, rfl⟩ := words_issue_cons.mp spelled
  cases words_issue_nil.mp rest
  refine ⟨[w], spelled, fun v mem s ↦ ?_⟩
  obtain ⟨t, executes, done⟩ := runs s
  rw [List.mem_singleton.mp mem]
  exact ⟨t, executes, keeps s t done⟩

variable (low : ∀ r ∈ kept, r.number < 12)
include low

private theorem kept_ne_pc {r : Register} (mem : r ∈ kept) : r ≠ .pc :=
  Register.ne_pc (by have := low r mem; bv_omega)

/-- An instruction with a result, if its register is not among those of the list. -/
theorem put {x : State → Word} (apart : rd ∉ kept) (other : rd ≠ .pc)
    (has : (issue c [i]).HasEffect u fun s t ↦
      t = if c.holds s.flags then s.put rd (x s) else s.advance) :
    Spares u kept (issue c [i]) := by
  refine single has ?_
  rintro s _ rfl r mem
  have r_rd : r ≠ rd := fun same ↦ apart (same ▸ mem)
  split
  · rw [State.core_put other, if_neg (kept_ne_pc low mem), if_neg r_rd]
  · rw [State.core_advance, if_neg (kept_ne_pc low mem)]

/-- An instruction without a result in a core register. -/
theorem advance {f : State → State} (has : (issue c [i]).HasEffect u fun s t ↦
      t = if c.holds s.flags then (f s).advance else s.advance)
    (same : ∀ s, (f s).core = s.core) : Spares u kept (issue c [i]) := by
  refine single has ?_
  rintro s _ rfl r mem
  split <;> rw [State.core_advance, if_neg (kept_ne_pc low mem)]
  rw [same]

end Spares

variable {u : FloatUnit} {kept : List Register} {c : Condition} {rd result left right : Register}
  {value : Word}

section Low

variable (low : ∀ r ∈ kept, r.number < 12)
include low

/-- Loading a constant spares every register but its own. -/
theorem constant_spares (hd : rd.number < 15) (apart : rd ∉ kept) :
    Spares u kept (issueCore c (constant rd value)) := by
  have moved (op : MoveOp) {x : Word} {o : Operand} (found : Operand.ofValue? x = some o) :
      Spares u kept (issueCore c [.move op false rd o]) := by
    obtain ⟨rotate, imm8, rfl, -⟩ := Operand.exists_of_ofValue? found
    exact .put low apart (Register.ne_pc hd) (.move op hd ⟨_, rfl⟩ rfl)
  have wide (top : Bool) (imm : Halfword) :
      Spares u kept (issueCore c [.moveWide top rd imm]) :=
    .put low apart (Register.ne_pc hd) (.moveWide top imm hd)
  unfold constant
  split
  · next found => exact moved .mov found
  split
  · next found => exact moved .mvn found
  dsimp only
  split
  · exact wide false _
  · exact (wide false _).append (wide true _)

/-- A division by way of doubles spares every register but its result and `IP`. -/
theorem divideByFloat_spares (signed : Bool) (hres : result.number < 15) (hl : left.number < 15)
    (hr : right.number < 15) (res_ip : result ≠ .ip) (left_ip : left ≠ .ip) (right_ip : right ≠ .ip)
    {dl dr : DRegister} (hdl : dl.number < 16) (hdr : dr.number < 16) (apart : result ∉ kept) :
    Spares u kept (divideByFloat .al signed result left right dl dr) := by
  obtain ⟨sl, low_l, hsl, -⟩ := exists_lowHalf hdl
  obtain ⟨sr, low_r, hsr, -⟩ := exists_lowHalf hdr
  have ip_apart : .ip ∉ kept := fun mem ↦ absurd (low .ip mem) (by decide)
  have ip_pc : Register.ip ≠ .pc := by decide
  have convert {d : DRegister} {half : SRegister} {rt : Register} (hd : d.number < 32)
      (hs : half.number < 32) (ht : rt.number < 15) : Spares u kept
        (issue .al [.float (.moveCore false half rt), .float (.ofInteger signed d half)]) :=
    (Spares.advance low (.moveToSingle hs ht) fun _ ↦ rfl).append
      (.advance low (.ofInteger hd hs) fun _ ↦ rfl)
  have divided : Spares u kept (issue .al [.float (.binary .vdiv dr dl dr)]) :=
    .advance low (.vdiv (by bv_omega) (by bv_omega) (by bv_omega)) fun _ ↦ rfl
  have fetched : Spares u kept
      (issue .al [.float (.toInteger signed sr dr), .float (.moveCore true sr .ip)]) :=
    (Spares.advance low (.toInteger hsr (by bv_omega)) fun _ ↦ rfl).append
      (.put low ip_apart ip_pc (.moveToCore hsr (by decide)))
  have quotient : Spares u kept
      (issue .al ((floatQuotient signed left right dl dr sl sr).map .float)) :=
    (((convert (by bv_omega) hsl hl).append (convert (by bv_omega) hsr hr)).append divided).append
      fetched
  have negated : Spares u kept (negateOnMinusOne left right) :=
    (Spares.advance low (.compare .cmn hr ⟨_, rfl⟩ rfl) fun _ ↦ rfl).append
      (.put low ip_apart ip_pc (.arithmetic .rsb (by decide) hl ⟨_, rfl⟩ rfl))
  have zeroed : Spares u kept (zeroOnZero right) :=
    (Spares.advance low (.compare .cmp hr ⟨_, rfl⟩ rfl) fun _ ↦ rfl).append
      (.put low ip_apart ip_pc (.move .mov (by decide) ⟨_, rfl⟩ rfl))
  have moved : Spares u kept (issueCore .al [.move .mov false result (.register .ip)]) :=
    .put low apart (Register.ne_pc hres) (.move .mov hres ⟨_, rfl⟩ rfl)
  rw [divideByFloat, guarded, if_pos rfl, guarded, if_pos ⟨res_ip, left_ip, right_ip⟩, low_l, low_r]
  refine ((quotient.append ?_).append zeroed).append moved
  split
  · exact negated
  · exact .nil

/-- A division, with a divider or without. -/
theorem divide_spares (features : Features) (signed : Bool) (hres : result.number < 15)
    (hl : left.number < 15) (hr : right.number < 15) (res_ip : result ≠ .ip) (left_ip : left ≠ .ip)
    (right_ip : right ≠ .ip) {dl dr : DRegister} (hdl : dl.number < 16) (hdr : dr.number < 16)
    (apart : result ∉ kept) :
    Spares u kept (divide features .al signed result left right dl dr) := by
  unfold divide
  split
  · exact .put low apart (Register.ne_pc hres) (.divide (!signed) hres hl hr)
  · exact divideByFloat_spares low signed hres hl hr res_ip left_ip right_ip hdl hdr apart

end Low

end Sequence

end A32Assembler
