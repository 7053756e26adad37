import A32Assembler.Proofs.Division.Quotient
import A32Assembler.Proofs.Sequence.Expansion

/-!
# Division without a divider

The sequence that divides by way of doubles leaves the quotient toward zero, with the two results
that doubles do not give put right, and changes its result, `IP`, its two doubles and the flags
only.
-/

namespace A32Assembler.Sequence

open Machine

variable {u : FloatUnit} {signed : Bool} {result left right : Register} {dl dr : DRegister}

/-- The low half of a double exists and lies in the double. -/
theorem exists_lowHalf {d : DRegister} (h : d.number < 16) :
    ∃ low, d.lowHalf = .ok low ∧ low.number < 32 ∧ low.container = d := by
  obtain ⟨n⟩ := d
  have bound : n.toNat < 16 := h
  have half : (n * 2 / 2).toNat = n.toNat := by
    rw [BitVec.toNat_udiv, BitVec.toNat_mul]
    change n.toNat * 2 % 256 / 2 = n.toNat
    omega
  refine ⟨⟨n * 2⟩, if_pos h, by bv_omega, ?_⟩
  simp only [FloatRegister.container, BitVec.eq_of_toNat_eq half]

section Steps

variable {d : DRegister} {low : SRegister} (hd : d.number < 32) (hlow : low.number < 32)
  (inside : low.container = d)
include hd hlow inside

/-- A core register moved into a half of a double and converted there. -/
theorem convert_effect {rt : Register} (ht : rt.number < 15) :
    HasEffect u (issue .al [.float (.moveCore false low rt), .float (.ofInteger signed d low)])
      fun s t ↦ t.double d = u.ofInteger signed (s.core rt) ∧ s.Keeps t [] [d] := by
  refine HasEffect.append (.moveToSingle hlow ht) (.ofInteger hd hlow) ?_
  rintro s _ _ rfl rfl
  simp only [Condition.holds_al, if_true]
  refine ⟨by simp, ?_⟩
  exact (State.keeps_writeSingle inside).advance.trans State.keeps_writeDouble.advance

/-- A double converted in one of its halves and moved to `IP`. -/
theorem fetch_effect :
    HasEffect u (issue .al [.float (.toInteger signed low d), .float (.moveCore true low .ip)])
      fun s t ↦ t.core .ip = u.toInteger signed (s.double d) ∧ s.Keeps t [.ip] [d] := by
  refine HasEffect.append (.toInteger hlow hd) (.moveToCore hlow (by decide)) ?_
  rintro s _ _ rfl rfl
  have ip_pc : Register.ip ≠ .pc := by decide
  simp only [Condition.holds_al, if_true]
  refine ⟨by simp [State.core_put ip_pc, ip_pc], ?_⟩
  exact (State.keeps_writeSingle inside).advance.andThen (State.keeps_put ip_pc)

end Steps

/-- A double divided by another. -/
theorem vdiv_effect (hdl : dl.number < 32) (hdr : dr.number < 32) :
    HasEffect u (issue .al [.float (.binary .vdiv dr dl dr)]) fun s t ↦
      t.double dr = u.divide (s.double dl) (s.double dr) ∧ s.Keeps t [] [dr] := by
  refine HasEffect.mono (.vdiv hdr hdl hdr) ?_
  rintro s _ rfl
  simp only [Condition.holds_al, if_true]
  exact ⟨by simp, State.keeps_writeDouble.advance⟩

/-- The register whose value is divided in the end. In a double of its own that is the left one, but
in a common double the right one is converted last. -/
def dividend (left right : Register) (dl dr : DRegister) : Register :=
  if dl = dr then right else left

/-- The conversions and the division leave the converted quotient in `IP`. -/
theorem floatQuotient_effect (signed : Bool) {sl sr : SRegister} (hl : left.number < 15)
    (hr : right.number < 15) (hdl : dl.number < 32) (hdr : dr.number < 32)
    (hsl : sl.number < 32) (inside_l : sl.container = dl)
    (hsr : sr.number < 32) (inside_r : sr.container = dr) :
    HasEffect u (issue .al ((floatQuotient signed left right dl dr sl sr).map .float)) fun s t ↦
      t.core .ip = u.toInteger signed (u.divide
        (u.ofInteger signed (s.core (dividend left right dl dr)))
        (u.ofInteger signed (s.core right))) ∧ s.Keeps t [.ip] [dl, dr] := by
  refine HasEffect.mono ((((convert_effect hdl hsl inside_l hl).andThen
    (convert_effect hdr hsr inside_r hr)).andThen (vdiv_effect hdl hdr)).andThen
    (fetch_effect hdr hsr inside_r)) ?_
  rintro s t ⟨s3, ⟨s2, ⟨s1, ⟨double_l, keeps1⟩, double_r, keeps2⟩, quotient, keeps3⟩, fetched,
    keeps4⟩
  rw [keeps1.core right (Register.ne_pc hr) List.not_mem_nil] at double_r
  have divided : s2.double dl = u.ofInteger signed (s.core (dividend left right dl dr)) := by
    by_cases common : dl = dr
    · rw [dividend, if_pos common, common, double_r]
    · rw [dividend, if_neg common, keeps2.double dl (by simpa using common), double_l]
  constructor
  · rw [fetched, quotient, divided, double_r]
  · exact (((keeps1.andThen keeps2).andThen keeps3).andThen keeps4).mono (by simp) (by simp)

/-- A comparison that decides whether `IP` is replaced. -/
theorem replace_effect {test : ComparisonOp} {o : Operand} {fix : Sequence} {c : Word}
    (value : State → Word) (hr : right.number < 15) (ho : ∃ x, o.encoding = .ok x)
    (plain : o.canonical = o)
    (tests : ∀ s : State, (compute test.opcode s.flags (s.core right)
      (o.evaluate s.read s.flags.c)).flags.z = decide (s.core right = c))
    (fixes : fix.HasEffect u fun s t ↦
      t = if Condition.eq.holds s.flags then s.put .ip (value s) else s.advance)
    (stable : ∀ (s : State) (f : Flags), value (State.advance { s with flags := f }) = value s) :
    HasEffect u (issueCore .al [.compare test right o] ++ fix) fun s t ↦
      t.core .ip = (if s.core right = c then value s else s.core .ip) ∧ s.Keeps t [.ip] [] := by
  refine HasEffect.append (.compare test hr ho plain) fixes ?_
  rintro s _ _ rfl rfl
  have ip_pc : Register.ip ≠ .pc := by decide
  simp only [if_true, Condition.holds, State.flags_advance, tests, stable,
    decide_eq_true_eq]
  by_cases equal : s.core right = c
  · simp only [equal, if_true]
    refine ⟨by simp [State.core_put ip_pc, ip_pc], ?_⟩
    exact State.keeps_flags.advance.andThen (State.keeps_put ip_pc)
  · simp only [equal, if_false]
    refine ⟨by simp [ip_pc], ?_⟩
    exact State.keeps_flags.advance.advance.mono (List.nil_subset _) (List.Subset.refl _)

/-- After the fix for a divisor of minus one, `IP` holds the negated dividend if the divisor is
minus one. -/
theorem negateOnMinusOne_effect (hl : left.number < 15) (hr : right.number < 15) :
    HasEffect u (negateOnMinusOne left right) fun s t ↦
      t.core .ip = (if s.core right = -1 then -s.core left else s.core .ip) ∧
        s.Keeps t [.ip] [] := by
  refine replace_effect (fun s ↦ -s.core left) hr ⟨_, rfl⟩ rfl ?_ ?_ ?_
  · intro s
    simp [ComparisonOp.opcode]
  · refine HasEffect.mono (.arithmetic .rsb (by decide) hl ⟨_, rfl⟩ rfl) ?_
    rintro s _ rfl
    simp [ArithmeticOp.opcode]
  · intro s f
    simp [Register.ne_pc hl]

/-- After the fix for a divisor of zero, `IP` holds zero if the divisor is zero. -/
theorem zeroOnZero_effect (hr : right.number < 15) :
    HasEffect u (zeroOnZero right) fun s t ↦
      t.core .ip = (if s.core right = 0 then 0 else s.core .ip) ∧ s.Keeps t [.ip] [] := by
  refine replace_effect (fun _ ↦ 0) hr ⟨_, rfl⟩ rfl ?_ ?_ ?_
  · intro s
    simp [ComparisonOp.opcode]
  · refine HasEffect.mono (.move .mov (by decide) ⟨_, rfl⟩ rfl) ?_
    rintro s _ rfl
    simp [MoveOp.opcode]
  · exact fun _ _ ↦ rfl

/-- What the conversions give and the fixes leave is the quotient toward zero. -/
theorem quotient_of_fixes (h : u.Ieee) (signed : Bool) (x y : Word) :
    (if y = 0 then 0
      else if signed = true ∧ y = -1 then -x
      else u.toInteger signed (u.divide (u.ofInteger signed x) (u.ofInteger signed y))) =
      Word.quotient signed x y := by
  split
  · next zero => rw [zero, Word.quotient_zero]
  split
  · next minus =>
    obtain ⟨rfl, rfl⟩ := minus
    exact (Word.quotient_minus_one x).symm
  · next zero other =>
    rw [h.toInteger_divide signed x zero]
    exact Word.saturate_tdiv x fun is_signed minus ↦ other ⟨is_signed, minus⟩

/-- The division by way of doubles, with the dividend that it has in the end. -/
theorem divideByFloat_outcome (signed : Bool) (hres : result.number < 15)
    (hl : left.number < 15) (hr : right.number < 15) (res_ip : result ≠ .ip)
    (left_ip : left ≠ .ip) (right_ip : right ≠ .ip) (hdl : dl.number < 16)
    (hdr : dr.number < 16) :
    HasEffect u (divideByFloat .al signed result left right dl dr) fun s t ↦
      t.core result = (if s.core right = 0 then 0
        else if signed = true ∧ s.core right = -1 then -s.core left
        else u.toInteger signed (u.divide
          (u.ofInteger signed (s.core (dividend left right dl dr)))
          (u.ofInteger signed (s.core right)))) ∧
        s.Keeps t [result, .ip] [dl, dr] := by
  obtain ⟨sl, low_l, hsl, inside_l⟩ := exists_lowHalf hdl
  obtain ⟨sr, low_r, hsr, inside_r⟩ := exists_lowHalf hdr
  have divided := floatQuotient_effect (u := u) signed hl hr (by bv_omega) (by bv_omega)
    hsl inside_l hsr inside_r
  have negated : HasEffect u (if signed then negateOnMinusOne left right else []) fun s t ↦
      t.core .ip = (if signed = true ∧ s.core right = -1 then -s.core left else s.core .ip) ∧
        s.Keeps t [.ip] [] := by
    cases signed with
    | false =>
      refine HasEffect.mono .nil ?_
      rintro s _ rfl
      exact ⟨by simp, .refl⟩
    | true => simpa using negateOnMinusOne_effect hl hr
  have moved := HasEffect.move (u := u) (c := .al) .mov hres
    (o := .register .ip) ⟨_, rfl⟩ rfl
  rw [divideByFloat, guarded, if_pos rfl, guarded, if_pos ⟨res_ip, left_ip, right_ip⟩, low_l, low_r]
  have zeroed := (divided.andThen negated).andThen (zeroOnZero_effect hr)
  refine HasEffect.mono (zeroed.andThen moved) ?_
  rintro s _ ⟨s3, ⟨s2, ⟨s1, ⟨quotient, keeps1⟩, minus, keeps2⟩, zero, keeps3⟩, rfl⟩
  have res_pc := Register.ne_pc hres
  have left1 := keeps1.core left (Register.ne_pc hl) (by simpa using left_ip)
  have right1 := keeps1.core right (Register.ne_pc hr) (by simpa using right_ip)
  have right2 := keeps2.core right (Register.ne_pc hr) (by simpa using right_ip)
  rw [right2, right1] at zero
  rw [right1, left1, quotient] at minus
  rw [minus] at zero
  have before := (keeps1.andThen keeps2).andThen keeps3
  simp only [Condition.holds_al, if_true, MoveOp.opcode, value_compute_mov, Operand.evaluate,
    State.read_of_ne (show Register.ip ≠ .pc by decide)]
  constructor
  · rw [State.core_put res_pc, if_neg res_pc, if_pos rfl, zero]
  · exact (before.andThen (State.keeps_put res_pc)).mono (by simp) (by simp)

/-- The division by way of doubles. -/
theorem divideByFloat_effect (h : u.Ieee) (signed : Bool) (hres : result.number < 15)
    (hl : left.number < 15) (hr : right.number < 15) (res_ip : result ≠ .ip)
    (left_ip : left ≠ .ip) (right_ip : right ≠ .ip) (hdl : dl.number < 16) (hdr : dr.number < 16)
    (distinct : dl ≠ dr) :
    HasEffect u (divideByFloat .al signed result left right dl dr) fun s t ↦
      t.core result = Word.quotient signed (s.core left) (s.core right) ∧
        s.Keeps t [result, .ip] [dl, dr] := by
  refine HasEffect.mono
    (divideByFloat_outcome signed hres hl hr res_ip left_ip right_ip hdl hdr) ?_
  rintro s t ⟨value, keeps⟩
  rw [dividend, if_neg distinct, quotient_of_fixes h] at value
  exact ⟨value, keeps⟩

/-- The division by hardware. -/
theorem divideByHardware_effect (c : Condition) (signed : Bool) (hres : result.number < 15)
    (hl : left.number < 15) (hr : right.number < 15) :
    HasEffect u (issueCore c [.divide (!signed) result left right]) fun s t ↦
      c.holds s.flags → t.core result = Word.quotient signed (s.core left) (s.core right) ∧
        s.Keeps t [result] [] := by
  refine HasEffect.mono (.divide (!signed) hres hl hr) ?_
  rintro s _ rfl holds
  rw [if_pos holds]
  have res_pc := Register.ne_pc hres
  refine ⟨?_, State.keeps_put res_pc⟩
  cases signed with
  | false => simp [State.core_put res_pc, res_pc, Word.quotient_false]
  | true => simp [State.core_put res_pc, res_pc, Word.quotient_true]

/-- A division, whether the processor has a divider or not. -/
theorem divide_effect {features : Features} (h : features.integerDivision = false → u.Ieee)
    (signed : Bool) (hres : result.number < 15) (hl : left.number < 15) (hr : right.number < 15)
    (res_ip : result ≠ .ip) (left_ip : left ≠ .ip) (right_ip : right ≠ .ip)
    (hdl : dl.number < 16) (hdr : dr.number < 16) (distinct : dl ≠ dr) :
    HasEffect u (divide features .al signed result left right dl dr) fun s t ↦
      t.core result = Word.quotient signed (s.core left) (s.core right) ∧
        s.Keeps t [result, .ip] [dl, dr] := by
  unfold divide
  split
  · refine HasEffect.mono (divideByHardware_effect .al signed hres hl hr) ?_
    intro s t divided
    obtain ⟨value, keeps⟩ := divided rfl
    exact ⟨value, keeps.mono (by simp) (by simp)⟩
  · next without =>
    exact divideByFloat_effect (h (by simpa using without)) signed hres hl hr res_ip left_ip
      right_ip hdl hdr distinct

/-- A division without a divider appends words that leave in the result what the division
instruction leaves there: the quotient toward zero. They change nothing else but `IP`, the two
doubles and the flags. -/
theorem division_paths_agree (h : u.Ieee) (soft hard : Assembler) (signed : Bool)
    (result left right : Register) (dl dr : DRegister) (soft_al : soft.condition = .al)
    (hard_al : hard.condition = .al) (without : soft.settings.features.integerDivision = false)
    (with_divider : hard.settings.features.integerDivision = true)
    (hres : result.number < 15) (hl : left.number < 15) (hr : right.number < 15)
    (res_ip : result ≠ .ip) (left_ip : left ≠ .ip) (right_ip : right ≠ .ip)
    (hdl : dl.number < 16) (hdr : dr.number < 16) (distinct : dl ≠ dr) :
    ∃ ws w, soft.apply (.expand (.divide signed result left right dl dr)) =
        .ok (.nothing, soft.append ws) ∧
      hard.apply (.expand (.divide signed result left right dl dr)) =
        .ok (.nothing, hard.append [w]) ∧
      decode w = some ⟨.al, .core (.divide (!signed) result left right)⟩ ∧
      ∀ s, ∃ t t', Executes u ws s t ∧ Executes u [w] s t' ∧ t.core result = t'.core result ∧
        t.core result = Word.quotient signed (s.core left) (s.core right) ∧
        s.Keeps t [result, .ip] [dl, dr] := by
  have by_float := divideByFloat_effect h signed hres hl hr res_ip left_ip right_ip
    hdl hdr distinct
  obtain ⟨ws, applied, runs⟩ := HasEffect.apply_expand (a := soft)
    (r := .divide signed result left right dl dr)
    (by rwa [Request.sequence, divide, without, soft_al])
  obtain ⟨vs, words, runs'⟩ := divideByHardware_effect (u := u) .al signed hres hl hr
  obtain ⟨w, vs, encoded, rest, rfl⟩ := words_issue_cons.mp words
  cases words_issue_nil.mp rest
  refine ⟨ws, w, applied, apply_expand ?_, Decode.decode_divide encoded, ?_⟩
  · rw [Request.sequence, divide, with_divider, hard_al]
    exact words
  intro s
  obtain ⟨t, executes, value, keeps⟩ := runs s
  obtain ⟨t', executes', divided⟩ := runs' s
  have value' := (divided rfl).1
  exact ⟨t, t', executes, executes', value.trans value'.symm, value, keeps⟩

/-- Seven divided by minus two without a divider, among registers that overlap. -/
theorem seven_over_minus_two : ∃ ws, (Assembler.start (.near ⟨false, false⟩)).apply
      (.expand (.divide true .r0 .r0 (.ofNat 1) ⟨0⟩ ⟨1⟩)) =
        .ok (.nothing, (Assembler.start (.near ⟨false, false⟩)).append ws) ∧
    ∀ s, s.core .r0 = 7 → s.core (.ofNat 1) = -2 →
      ∃ t, Executes FloatUnit.reference ws s t ∧ t.core .r0 = -3 := by
  obtain ⟨ws, w, applied, -, -, runs⟩ := division_paths_agree FloatUnit.ieee_reference
    (.start (.near ⟨false, false⟩)) (.start (.near .full)) true .r0 .r0 (.ofNat 1) ⟨0⟩ ⟨1⟩
    rfl rfl rfl rfl (by decide) (by decide) (by decide) (by decide) (by decide) (by decide)
    (by decide) (by decide) (by decide)
  refine ⟨ws, applied, ?_⟩
  intro s seven minus_two
  obtain ⟨t, -, executes, -, -, value, -⟩ := runs s
  refine ⟨t, executes, ?_⟩
  rw [value, seven, minus_two]
  rfl

end A32Assembler.Sequence
