-- Selected code can be encoded when the machine operands it is selected from can: what every
-- selecting function asks of them.
import Backend.Proofs.Machine.Encodable
import Backend.Proofs.Selection.Shape

namespace Backend.Selection

open Backend.Machine (Inst Fits)

/-- Every instruction of the code that is no direct branch has machine code. -/
def Encoded (code : List Inst) : Prop := ∀ i ∈ code, i.branchTarget? = none → i.Encodes

theorem encoded_nil : Encoded [] := by
  intro i hi
  cases hi

theorem encoded_singleton {i : Inst} (h : i.Encodes) : Encoded [i] := by
  intro j hj _
  cases List.mem_singleton.mp hj
  exact h

theorem Encoded.append {xs ys : List Inst} (hx : Encoded xs) (hy : Encoded ys) :
    Encoded (xs ++ ys) := by
  intro i hi
  exact (List.mem_append.mp hi).elim (hx i) (hy i)

theorem Encoded.cons {i : Inst} {code : List Inst} (hi : i.Encodes) (h : Encoded code) :
    Encoded (i :: code) :=
  (encoded_singleton hi).append h

/-! ## Operands -/

/-- The operand is sound, if it is there. -/
def SoundOption (o : Option Machine.Operand) : Prop := ∀ m, o = some m → m.Sound

/-- An operand of integer instructions. -/
def IsIntKind : Machine.Operand → Prop
  | .reg _ | .mem _ | .imm _ => True
  | _ => False

theorem soundOption_some {m : Machine.Operand} (h : m.Sound) : SoundOption (some m) := by
  rintro n hn
  cases hn
  exact h

theorem sound_r11 {w : UInt8} (hw : Machine.IsWidth w) : (Machine.Operand.reg (r11 w)).Sound := hw

theorem sound_xmm15 {w : UInt8} (hw : Machine.IsWidth w) :
    (Machine.Operand.xmm (xmm15 w)).Sound := hw

theorem sound_resize {m : Machine.Operand} (h : m.Sound) {w : UInt8} (hw : Machine.IsWidth w) :
    (resize m w).Sound := by
  cases m with
  | reg r => exact hw
  | xmm x => exact hw
  | mem m => exact ⟨hw, h.2⟩
  | imm v => trivial
  | target t => trivial

/-- An immediate that is cut to a width is in the range of the width. -/
theorem fits_truncate {w : UInt8} (hw : Machine.IsWidth w) {v : Int64}
    (h : w = 8 → Machine.fitsInt32 v = true) : Fits w (truncate v w) := by
  have h127 : (127 : Int64).toInt = 127 := rfl
  have hlow8 : (-128 : Int64).toInt = -128 := rfl
  have h32767 : (32767 : Int64).toInt = 32767 := rfl
  have hlow16 : (-32768 : Int64).toInt = -32768 := rfl
  unfold Fits
  rcases hw with rfl | rfl | rfl | rfl
  · have ht : (truncate v 1).toInt = v.toInt8.toInt := Int8.toInt_toInt64 _
    have h1 := Int8.le_toInt v.toInt8
    have h2 := Int8.toInt_lt v.toInt8
    simp only [if_true, Machine.fitsInt8, Bool.and_eq_true, decide_eq_true_eq,
      Int64.le_iff_toInt_le]
    omega
  · have ht : (truncate v 2).toInt = v.toInt16.toInt := Int16.toInt_toInt64 _
    have h1 := Int16.le_toInt v.toInt16
    have h2 := Int16.toInt_lt v.toInt16
    rw [if_neg (by decide), if_pos rfl]
    simp only [Int64.le_iff_toInt_le]
    omega
  · have ht : (truncate v 4).toInt = v.toInt32.toInt := Int32.toInt_toInt64 _
    have h1 := Int32.le_toInt v.toInt32
    have h2 := Int32.toInt_lt v.toInt32
    rw [if_neg (by decide), if_neg (by decide), fitsInt32_iff]
    omega
  · exact h rfl

theorem isAluSource_resize {m : Machine.Operand} (h : m.Sound) (hk : IsIntKind m) {w : UInt8}
    (hw : Machine.IsWidth w) (hv : ∀ v, m = .imm v → w = 8 → Machine.fitsInt32 v = true) :
    (resize m w).IsAluSource w := by
  cases m with
  | reg r => rfl
  | mem m => exact ⟨rfl, h.2⟩
  | imm v => exact fits_truncate hw (hv v rfl)
  | xmm x | target t => exact absurd hk id

theorem clobbers_resize (d : Option Machine.Operand) (m : Machine.Operand) (w : UInt8) :
    clobbers d (some (resize m w)) = clobbers d (some m) := by
  cases d with
  | none => rfl
  | some d => cases d <;> cases m <;> rfl

/-! ## Moves -/

theorem encoded_moveRegReg (d s : Machine.Reg) (signed : Bool) :
    Encoded (moveRegReg d s signed) := by
  unfold moveRegReg extend
  split
  · exact encoded_nil
  split
  · rename_i hw
    exact encoded_singleton (Machine.encodes_mov_reg_reg (by simpa using hw))
  split
  · rename_i hlt
    exact encoded_singleton (Machine.encodes_extend (show (Machine.Operand.reg s).IsGprOrMem s.width
      from rfl) hlt)
  split
  · exact encoded_singleton (Machine.encodes_mov_reg_reg rfl)
  · exact encoded_nil

theorem encoded_moveRegMem (d : Machine.Reg) {m : Machine.Memory} (signed : Bool)
    (h : m.addr.Encodes) : Encoded (moveRegMem d m signed) := by
  unfold moveRegMem extend
  split
  · exact encoded_singleton (Machine.encodes_mov_reg_mem h)
  split
  · rename_i hlt
    exact encoded_singleton (Machine.encodes_extend
      (show (Machine.Operand.mem m).IsGprOrMem m.width from ⟨rfl, h⟩) hlt)
  · exact encoded_singleton (Machine.encodes_mov_reg_mem h)

theorem encoded_moveMemReg {d : Machine.Memory} (s : Machine.Reg) (signed : Bool)
    (h : d.addr.Encodes) : Encoded (moveMemReg d s signed) := by
  unfold moveMemReg extend
  split
  · exact encoded_singleton (Machine.encodes_mov_mem_reg h)
  · rename_i hge
    have hlt : s.width < (r11 d.width).width := by simpa [r11] using hge
    exact .cons (Machine.encodes_extend (show (Machine.Operand.reg s).IsGprOrMem s.width
      from rfl) hlt) (encoded_singleton (Machine.encodes_mov_mem_reg h))

theorem encoded_moveToXmm {d : Machine.Xmm} {s : Machine.Operand} {code : List Inst} (hs : s.Sound)
    (h : moveToXmm d s = .ok code) : Encoded code := by
  cases s with
  | xmm y =>
    cases h
    split
    · exact encoded_singleton (Machine.encodes_movs_xmm trivial)
    · exact encoded_nil
  | mem m =>
    cases h
    exact encoded_singleton (Machine.encodes_movs_xmm hs.2)
  | reg r =>
    simp only [moveToXmm] at h
    split at h
    · cases h
    · cases h
      exact encoded_singleton Machine.encodes_movq_xmm_reg
  | imm v =>
    cases h
    split
    · exact encoded_singleton (Machine.encodes_scalar rfl trivial)
    · exact .cons (Machine.encodes_mov_reg_imm (.inr (.inr (.inr rfl))) (.inl rfl))
        (encoded_singleton Machine.encodes_movq_xmm_reg)
  | target t => cases h

theorem encoded_moveToReg {d : Machine.Reg} {s : Machine.Operand} {signed : Bool} {code : List Inst}
    (hd : Machine.IsWidth d.width) (hs : s.Sound) (h : moveToReg d s signed = .ok code) :
    Encoded code := by
  cases s with
  | xmm y =>
    cases h
    split
    · exact encoded_singleton Machine.encodes_movq_reg_xmm
    · exact .cons Machine.encodes_movq_reg_xmm (encoded_moveRegReg d _ signed)
  | reg r =>
    cases h
    exact encoded_moveRegReg d r signed
  | mem m =>
    cases h
    exact encoded_moveRegMem d signed hs.2
  | imm v =>
    cases h
    refine encoded_singleton (Machine.encodes_mov_reg_imm hd ?_)
    by_cases h8 : d.width = 8
    · exact .inl h8
    · exact .inr (fits_truncate hd fun h => absurd h h8)
  | target t => cases h

theorem encoded_moveToMem {d : Machine.Memory} {s : Machine.Operand} {signed : Bool}
    {code : List Inst} (hd : (Machine.Operand.mem d).Sound) (hs : s.Sound)
    (h : moveToMem d s signed = .ok code) : Encoded code := by
  cases s with
  | reg r =>
    cases h
    exact encoded_moveMemReg r signed hd.2
  | xmm x =>
    cases h
    split
    · exact encoded_singleton (Machine.encodes_movs_mem hd.2)
    · exact .cons Machine.encodes_movq_reg_xmm (encoded_moveMemReg _ signed hd.2)
  | mem m =>
    cases h
    exact (encoded_moveRegMem _ signed hs.2).append
      (encoded_singleton (Machine.encodes_mov_mem_reg hd.2))
  | imm v =>
    cases h
    split
    · rename_i hfits
      refine encoded_singleton (Machine.encodes_mov_mem_imm hd.2 (fits_truncate hd.1 fun h8 => ?_))
      rwa [h8] at hfits
    · exact .cons (Machine.encodes_mov_reg_imm (.inr (.inr (.inr rfl))) (.inl rfl))
        (encoded_singleton (Machine.encodes_mov_mem_reg hd.2))
  | target t => cases h

/-- A move between sound operands can be encoded. -/
theorem encoded_move {d s : Option Machine.Operand} {signed : Bool} {code : List Inst}
    (hd : SoundOption d) (hs : SoundOption s) (h : move d s signed = .ok code) : Encoded code := by
  unfold move at h
  split at h
  · cases h
    exact encoded_nil
  split at h
  · exact encoded_moveToXmm (hs _ rfl) h
  · exact encoded_moveToReg (hd _ rfl) (hs _ rfl) h
  · exact encoded_moveToMem (hd _ rfl) (hs _ rfl) h
  · cases h

/-- A value is only moved into a register or memory. -/
theorem isWidth_of_move {d s : Option Machine.Operand} {signed : Bool} {code : List Inst}
    (hd : SoundOption d) (h : move d s signed = .ok code) : Machine.IsWidth (opWidth d) := by
  cases d with
  | none => cases s <;> cases h
  | some m =>
    have hm := hd m rfl
    cases m with
    | reg r => exact hm
    | xmm x => exact hm
    | mem m => exact hm.1
    | imm v => cases s <;> cases h
    | target t => cases s <;> cases h

/-! ## Integers -/

theorem isWidth_of_binary {op : Machine.Op} {d x y : Option Machine.Operand}
    {commutative signed : Bool} {code : List Inst} (hd : SoundOption d)
    (h : binary op d x y commutative signed = .ok code) : Machine.IsWidth (opWidth d) := by
  rcases binary_cases h with ⟨r, load, -, -, hload, -⟩ | ⟨r, load, -, -, -, -, hload, -⟩ |
    ⟨load, result, -, hresult, -⟩
  · exact isWidth_of_move hd hload
  · exact isWidth_of_move hd hload
  · exact isWidth_of_move hd hresult

theorem workReg_eq (d : Option Machine.Operand) :
    ∃ r : Machine.Reg, workReg d = some (.reg r) ∧ r.width = opWidth d := by
  unfold workReg isGpr
  split
  · split
    · exact ⟨_, rfl, rfl⟩
    · contradiction
  · exact ⟨_, rfl, rfl⟩

/-- A two-address operation can be encoded if its instruction can: on a register and the second
source, and on the destination and the first source where they are swapped. -/
theorem encoded_binary {op : Machine.Op} {d x y : Option Machine.Operand}
    {commutative signed : Bool} {code : List Inst} (hd : SoundOption d) (hx : SoundOption x)
    (hy : SoundOption y)
    (hop : ∀ r : Machine.Reg, Machine.IsWidth r.width → r.width = opWidth d →
      (inst op (some (.reg r)) y).Encodes)
    (hswap : ∀ r : Machine.Reg, commutative = true → d = some (.reg r) → clobbers d y = true →
      (inst op d (x.map fun o => resize o r.width)).Encodes)
    (h : binary op d x y commutative signed = .ok code) : Encoded code := by
  rcases binary_cases h with ⟨r, load, rfl, -, hload, rfl⟩ |
    ⟨r, load, rfl, hcom, hclob, -, hload, rfl⟩ | ⟨load, result, hload, hresult, rfl⟩
  · exact (encoded_move hd hx hload).append (encoded_singleton (hop r (hd _ rfl) rfl))
  -- The exchanged form: the first source, which was made for a move, is now the second one.
  · exact (encoded_move hd hy hload).append (encoded_singleton (hswap r hcom rfl hclob))
  · have hw := isWidth_of_move hd hresult
    have h11 := soundOption_some (sound_r11 hw)
    exact ((encoded_move h11 hx hload).append (encoded_singleton (hop _ hw rfl))).append
      (encoded_move hd h11 hresult)

/-- Arithmetic that has instructions of its own. An exchanged literal needs a place in the
instruction. -/
theorem encoded_alu {op : Machine.Op} (hop : op.isAlu = true) {d : Option Machine.Operand}
    {x y : Machine.Operand} {commutative signed : Bool} {code : List Inst} (hd : SoundOption d)
    (hx : x.Sound) (hy : y.Sound) (hxk : IsIntKind x) (hyk : IsIntKind y)
    (hfit : ∀ v, y = .imm v → Machine.fitsInt32 v = true)
    (hswap : ∀ (r : Machine.Reg) (v : Int64), commutative = true → d = some (.reg r) → x = .imm v →
      clobbers d (some y) = true → r.width = 8 → Machine.fitsInt32 v = true)
    (h : binary op d (some x) (some (resize y (opWidth d))) commutative signed = .ok code) :
    Encoded code := by
  have hwidth := isWidth_of_binary hd h
  refine encoded_binary hd (soundOption_some hx) (soundOption_some (sound_resize hy hwidth)) ?_ ?_ h
  · intro r hr hrd
    have hsrc := isAluSource_resize hy hyk hwidth fun v hv _ => hfit v hv
    rw [← hrd] at hsrc ⊢
    exact Machine.encodes_alu hop rfl hsrc (.inl ⟨r, rfl⟩)
  · rintro r hcom rfl hclob
    rw [clobbers_resize] at hclob
    have hsrc := isAluSource_resize hx hxk hwidth fun v hv h8 => hswap r v hcom rfl hv hclob h8
    exact Machine.encodes_alu hop rfl hsrc (.inl ⟨r, rfl⟩)

theorem fitsRm_resize {m : Machine.Operand} (h : m.Sound) (hk : IsIntKind m)
    (hi : isImm (some m) = false) (w : UInt8) : Machine.FitsRm (some (resize m w)) := by
  cases m with
  | reg r => trivial
  | mem m => exact h.2
  | imm v => cases hi
  | xmm x | target t => exact absurd hk id

/-- A multiplication. An exchanged literal has no place in the instruction. -/
theorem encoded_mul {d : Option Machine.Operand} {x y : Machine.Operand} {signed : Bool}
    {code : List Inst} (hd : SoundOption d) (hx : x.Sound) (hy : y.Sound) (hxk : IsIntKind x)
    (hyk : IsIntKind y) (hfit : ∀ v, y = .imm v → Machine.fitsInt32 v = true)
    (hswap : ∀ (r : Machine.Reg) (v : Int64), d = some (.reg r) → r.width ≠ 1 → x = .imm v →
      isImm (some y) = false → clobbers d (some y) = false)
    (h : mul d (some x) (some y) signed = .ok code) : Encoded code := by
  have h4 : Machine.IsWidth 4 := .inr (.inr (.inl rfl))
  have h1 : Machine.IsWidth 1 := .inl rfl
  rcases mul_cases h with ⟨-, load, product, result, hload, hproduct, hresult, rfl⟩ |
    ⟨hw, k, load, src, result, hk, hsrc, hresult, rfl⟩ | ⟨hw, hi, h⟩
  · have hp : product.Encodes := by
      rcases hproduct with ⟨k, hk, rfl⟩ | ⟨r, -, rfl⟩
      · refine Machine.encodes_imul_imm (show (4 : UInt8) ≠ 1 by decide) trivial ?_
        exact hfit k (Option.some.inj hk)
      · exact Machine.encodes_imul (show (4 : UInt8) ≠ 1 by decide) trivial
    exact ((encoded_move (soundOption_some (sound_r11 h4)) (soundOption_some (sound_resize hx h1))
      hload).append (encoded_singleton hp)).append
      (encoded_move hd (soundOption_some (sound_r11 h1)) hresult)
  · obtain ⟨r, hr, hrw⟩ := workReg_eq d
    have hwidth := isWidth_of_move hd hresult
    have hwork : SoundOption (workReg d) := by
      rw [hr]
      refine soundOption_some ?_
      rwa [← hrw] at hwidth
    have hs : Encoded load ∧ Machine.FitsRm src := by
      rcases hsrc with ⟨-, hload, rfl⟩ | ⟨hnot, rfl, rfl⟩
      · refine ⟨encoded_move hwork (soundOption_some hx) hload, ?_⟩
        rw [hr]
        trivial
      · exact ⟨encoded_nil, fitsRm_resize hx hxk hnot _⟩
    refine (hs.1.append (encoded_singleton ?_)).append (encoded_move hd hwork hresult)
    rw [hr, ← hrw]
    rw [← hrw] at hw hwidth
    refine Machine.encodes_imul_imm hw hs.2 (fits_truncate hwidth fun _ => ?_)
    exact hfit k (Option.some.inj hk)
  · have hwidth := isWidth_of_binary hd h
    refine encoded_binary hd (soundOption_some hx)
      (soundOption_some (sound_resize hy hwidth)) ?_ ?_ h
    · intro r _ hrd
      exact Machine.encodes_imul (by rwa [hrd]) (fitsRm_resize hy hyk hi _)
    · rintro r - rfl hclob
      refine Machine.encodes_imul hw (fitsRm_resize hx hxk ?_ _)
      cases x with
      | imm v =>
        have hfree := hswap r v rfl hw rfl hi
        rw [← clobbers_resize _ y (opWidth (some (.reg r)))] at hfree
        exact absurd (hfree.symm.trans hclob) (by decide)
      | _ => rfl

theorem encoded_unary {op : Machine.Op} (hop : op = .neg ∨ op = .not) {d x : Option Machine.Operand}
    {signed : Bool} {code : List Inst} (hd : SoundOption d) (hx : SoundOption x)
    (h : unary op d x signed = .ok code) : Encoded code := by
  obtain ⟨load, result, hload, hresult, rfl⟩ := unary_code h
  have hwidth := isWidth_of_move hd hresult
  obtain ⟨r, hr, hrw⟩ := workReg_eq d
  rw [← hrw] at hwidth
  rw [hr] at hload hresult ⊢
  have hwork : SoundOption (some (.reg r)) := soundOption_some hwidth
  refine ((encoded_move hwork hx hload).append (encoded_singleton ?_)).append
    (encoded_move hd hwork hresult)
  exact Machine.encodes_unary (hop.imp_right .inl) (show (Machine.Operand.reg r).IsGprOrMem r.width
    from rfl)

/-- A literal count is below the width. -/
theorem isCount_masked {w : UInt8} (hw : Machine.IsWidth w) (n : Int64) :
    Machine.IsCount (.imm (n &&& (Int64.ofNat (w.toNat * 8) - 1))) := by
  have hmask : ∀ (mask : Int64) (j : Nat), mask.toBitVec.toNat = 2 ^ j - 1 → 2 ^ j ≤ 64 →
      Machine.IsCount (.imm (n &&& mask)) := by
    intro mask j hj hle
    have hpos := Nat.two_pow_pos j
    have hnat : (n &&& mask).toBitVec.toNat < 2 ^ j := by
      rw [Int64.toBitVec_and, BitVec.toNat_and, hj]
      exact Nat.lt_of_le_of_lt Nat.and_le_right (by omega)
    have hint : (n &&& mask).toInt = (n &&& mask).toBitVec.toNat :=
      BitVec.toInt_eq_toNat_of_lt (by omega)
    have hzero : (0 : Int64).toInt = 0 := rfl
    have hmax : (63 : Int64).toInt = 63 := rfl
    refine .inl ⟨_, rfl, ?_, ?_⟩ <;>
    · rw [Int64.le_iff_toInt_le]
      omega
  rcases hw with rfl | rfl | rfl | rfl
  · exact hmask _ 3 (by decide) (by decide)
  · exact hmask _ 4 (by decide) (by decide)
  · exact hmask _ 5 (by decide) (by decide)
  · exact hmask _ 6 (by decide) (by decide)

/-- A shift: its count is below the width or in cl. -/
theorem encoded_shift {op : Machine.Op} (hop : op = .shl ∨ op = .shr ∨ op = .sar)
    {d x y : Option Machine.Operand} {signed : Bool} {count : Machine.Operand} {code : List Inst}
    (hd : SoundOption d) (hx : SoundOption x) (hcount : shiftCount (opWidth d) y = .ok count)
    (h : binary op d x (some count) false signed = .ok code) : Encoded code := by
  have hwidth := isWidth_of_binary hd h
  have hcount : count.Sound ∧ Machine.IsCount count := by
    cases shiftCount_form hcount with
    | literal n => exact ⟨trivial, isCount_masked hwidth n⟩
    | cl => exact ⟨.inl rfl, .inr rfl⟩
  refine encoded_binary hd hx (soundOption_some hcount.1) ?_ ?_ h
  · intro r _ _
    exact Machine.encodes_shift hop (show (Machine.Operand.reg r).IsGprOrMem r.width from rfl)
      hcount.2
  · intro r hcom
    cases hcom

/-- A division of rax by a register or memory. -/
theorem encoded_divide {op : Opcode} {r : Machine.Reg} {y : Machine.Operand} {code : List Inst}
    (hr : r.width = 4 ∨ r.width = 8) (hy : (resize y r.width).IsGprOrMem r.width)
    (h : divide op (some (.reg r)) (some y) = .ok code) : Encoded code := by
  have hrdx : (Machine.Operand.reg ⟨Machine.rdx, 4⟩).IsGprOrMem 4 := rfl
  cases divide_code h with
  | signed dividend =>
    cases dividend
    exact .cons (Machine.encodes_cqo hr)
      (encoded_singleton (Machine.encodes_unary (.inr (.inr (.inr rfl))) hy))
  | unsigned dividend =>
    cases dividend
    exact .cons (Machine.encodes_alu rfl hrdx hrdx (.inl ⟨_, rfl⟩))
      (encoded_singleton (Machine.encodes_unary (.inr (.inr (.inl rfl))) hy))

/-! ## Floats -/

/-- An operand of float instructions. -/
def IsFloatKind : Machine.Operand → Prop
  | .xmm _ | .mem _ => True
  | _ => False

theorem isXmmOrMem_resize {m : Machine.Operand} (h : m.Sound) (hk : IsFloatKind m) (w : UInt8) :
    (resize m w).IsXmmOrMem := by
  cases m with
  | xmm x => trivial
  | mem m => exact h.2
  | reg r | imm v | target t => exact absurd hk id

theorem isXmmOrMem_of_kind {m : Machine.Operand} (h : m.Sound) (hk : IsFloatKind m) :
    m.IsXmmOrMem := by
  cases m with
  | xmm x => trivial
  | mem m => exact h.2
  | reg r | imm v | target t => exact absurd hk id

theorem exists_xmm_of_isXmm {o : Option Machine.Operand} (h : isXmm o = true) :
    ∃ x, o = some (.xmm x) := by
  unfold isXmm at h
  split at h
  · exact ⟨_, rfl⟩
  · cases h

/-- Float work is done in a register of the width of the destination. -/
theorem exists_xmm_of_worksIn {d work : Option Machine.Operand} (h : WorksIn d work) :
    ∃ x : Machine.Xmm, work = some (.xmm x) ∧ x.width = opWidth d := by
  rcases h with ⟨hx, rfl⟩ | rfl
  · obtain ⟨x, rfl⟩ := exists_xmm_of_isXmm hx
    exact ⟨x, rfl, rfl⟩
  · exact ⟨_, rfl, rfl⟩

/-- A source that has been loaded is in a float register, and its load can be encoded. -/
theorem encoded_loaded {x : Machine.Xmm} {a left : Option Machine.Operand} {load : List Inst}
    (hx : (Machine.Operand.xmm x).Sound) (ha : SoundOption a) (h : LoadedIn x a left load) :
    Encoded load ∧ ∃ z, left = some (.xmm z) := by
  rcases h with ⟨hxmm, rfl, rfl⟩ | ⟨rfl, hload⟩
  · exact ⟨encoded_nil, exists_xmm_of_isXmm hxmm⟩
  · exact ⟨encoded_move (soundOption_some hx) ha hload, x, rfl⟩

/-- The operand of a float instruction is checked to be in a float register or memory. -/
theorem exists_floatKind {o : Option Machine.Operand} (h : ¬ (!isXmm o && !isMem o) = true) :
    ∃ m, o = some m ∧ IsFloatKind m := by
  cases o with
  | none => exact absurd rfl h
  | some m =>
    refine ⟨m, rfl, ?_⟩
    cases m with
    | xmm x => trivial
    | mem m => trivial
    | reg r | imm v | target t => exact absurd rfl h

theorem isScalar_of_float {op : Opcode} {f : Machine.Op} (h : floatOp? op = some f) :
    f.isScalar = true := by
  cases op <;> cases h <;> rfl

theorem soundOption_resize {o : Option Machine.Operand} (h : SoundOption o) {w : UInt8}
    (hw : Machine.IsWidth w) : SoundOption (o.map fun o => resize o w) := by
  intro m hm
  obtain ⟨n, rfl, rfl⟩ := Option.map_eq_some_iff.mp hm
  exact sound_resize (h n rfl) hw

theorem encoded_floatBinary {op : Machine.Op} (hop : op.isScalar = true)
    {d x y : Option Machine.Operand} {commutative : Bool} {code : List Inst} (hd : SoundOption d)
    (hx : SoundOption x) (hy : SoundOption y) (h : floatBinary op d x y commutative = .ok code) :
    Encoded code := by
  obtain @⟨left, right, work, load, result, hsources, hwork, hkind, hload, hresult⟩ :=
    floatBinary_code h
  have hw := isWidth_of_move hd hresult
  have hsrc : SoundOption left ∧ SoundOption right := by
    rcases hsources with ⟨rfl, rfl⟩ | ⟨rfl, rfl⟩
    · exact ⟨hx, soundOption_resize hy hw⟩
    · exact ⟨soundOption_resize hy hw, soundOption_resize hx hw⟩
  obtain ⟨m, rfl, hmk⟩ := exists_floatKind hkind
  obtain ⟨z, rfl, hz⟩ := exists_xmm_of_worksIn hwork
  have hzs : SoundOption (some (.xmm z)) :=
    soundOption_some (show Machine.IsWidth z.width by rwa [hz])
  refine ((encoded_move hzs hsrc.1 hload).append (encoded_singleton ?_)).append
    (encoded_move hd hzs hresult)
  exact Machine.encodes_scalar hop (isXmmOrMem_of_kind (hsrc.2 m rfl) hmk)

theorem encoded_floatNeg {d x : Option Machine.Operand} {code : List Inst} (hd : SoundOption d)
    (hx : SoundOption x) (h : floatNeg d x = .ok code) : Encoded code := by
  obtain ⟨load, result, hload, hresult, rfl⟩ := floatNeg_code h
  have h11 := soundOption_some (sound_r11 (isWidth_of_move hd hresult))
  exact ((encoded_move h11 hx hload).append (encoded_singleton Machine.encodes_btc)).append
    (encoded_move hd h11 hresult)

theorem op_of_fused {op : Opcode} {f : Machine.Op} (h : fusedOp? op = some f) :
    f = .vfmadd231 ∨ f = .vfmsub231 ∨ f = .vfnmadd231 := by
  cases op <;> cases h <;> simp

/-- A fused multiplication, whose second factor is in a float register or memory. -/
theorem encoded_fused {c : Closure} {i : Instr} {d x : Option Machine.Operand} {y : Machine.Operand}
    {code : List Inst} (hd : SoundOption d) (hx : SoundOption x) (hy : y.Sound)
    (hyk : IsFloatKind y) (haddend : ∀ z, required c i.addend = .ok z → z.Sound)
    (h : fused c i d x (some y) = .ok code) : Encoded code := by
  obtain @⟨f, addend, work, left, load, factor, result, hfound, -, hadds, hwork, hload, hfactor,
    hresult⟩ :=
    fused_code h
  have hw := isWidth_of_move hd hresult
  obtain ⟨z, rfl, hz⟩ := exists_xmm_of_worksIn hwork
  have hzs : SoundOption (some (.xmm z)) :=
    soundOption_some (show Machine.IsWidth z.width by rwa [hz])
  obtain ⟨hfactors, l, rfl⟩ :=
    encoded_loaded (show (Machine.Operand.xmm (xmm14 (opWidth d))).Sound from hw)
    hx hfactor
  refine (((encoded_move hzs (soundOption_some (haddend _ hadds)) hload).append hfactors).append
    (encoded_singleton ?_)).append (encoded_move hd hzs hresult)
  exact Machine.encodes_fma (op_of_fused hfound) (isXmmOrMem_resize hy hyk _)

/-! ## Conversions -/

/-- An integer that is converted is brought to at least four bytes. -/
theorem encoded_intToFloat {d x : Option Machine.Operand} {signed : Bool} {code : List Inst}
    (hd : SoundOption d) (hx : SoundOption x) (hk : ∀ m, x = some m → IsIntKind m)
    (h : intToFloat d x signed = .ok code) : Encoded code := by
  obtain ⟨z, hz, hzw⟩ := exists_xmm_of_worksIn (worksIn_workXmm (d := d))
  have hwork : ∀ {result : List Inst}, move d (workXmm d) false = .ok result →
      SoundOption (workXmm d) := by
    intro result hresult
    have hw := isWidth_of_move hd hresult
    rw [hz]
    exact soundOption_some (show Machine.IsWidth z.width by rwa [hzw])
  cases intToFloat_code h with
  | inPlace hwidth hresult =>
    -- No conversion width: the source is converted where it is, so it is no literal.
    obtain ⟨m, rfl, hm, hfour⟩ : ∃ m, x = some m ∧ m.IsGprOrMem (opWidth x) ∧ 4 ≤ opWidth x := by
      have hne : opWidth x ≠ 0 ∧ 4 ≤ opWidth x := by
        simp only [conversionWidth, beq_iff_eq] at hwidth
        split at hwidth
        · cases hwidth
        split at hwidth
        · cases hwidth
        · rename_i h0 h4
          exact ⟨h0, by simpa using h4⟩
      cases x with
      | none => exact absurd rfl hne.1
      | some m =>
        refine ⟨m, rfl, ?_, hne.2⟩
        cases m with
        | reg r => rfl
        | mem m => exact ⟨rfl, (hx _ rfl).2⟩
        | imm v => exact absurd rfl hne.1
        | xmm y => exact (hk _ rfl).elim
        | target t => exact (hk _ rfl).elim
    refine .cons ?_ (encoded_move hd (hwork hresult) hresult)
    rw [hz]
    exact Machine.encodes_cvtsi2s hm hfour
  | widened hwidth hload hresult =>
    have hconv : conversionWidth x signed = 8 ∨ conversionWidth x signed = 4 := by
      simp only [conversionWidth] at hwidth ⊢
      split_ifs at hwidth ⊢ <;> simp_all
    have hwide : (Machine.Operand.reg (r11 (conversionWidth x signed))).Sound := by
      rcases hconv with h | h
      · exact .inr (.inr (.inr h))
      · exact .inr (.inr (.inl h))
    refine ((encoded_move (soundOption_some hwide) hx hload).append (encoded_singleton ?_)).append
      (encoded_move hd (hwork hresult) hresult)
    rw [hz]
    refine Machine.encodes_cvtsi2s (show (Machine.Operand.reg _).IsGprOrMem _ from rfl) ?_
    rcases hconv with h | h <;> simp [r11, h]

theorem encoded_floatToInt {d : Option Machine.Operand} {x : Machine.Operand} {signed : Bool}
    {code : List Inst} (hd : SoundOption d) (hx : x.Sound) (hk : IsFloatKind x)
    (h : floatToInt d (some x) signed = .ok code) : Encoded code := by
  have hsrc := isXmmOrMem_of_kind hx hk
  have hwide : ∀ {w : UInt8}, w = 4 ∨ w = 8 → 4 ≤ w ∧ Machine.IsWidth w := by
    rintro w (rfl | rfl)
    · exact ⟨by decide, .inr (.inr (.inl rfl))⟩
    · exact ⟨by decide, .inr (.inr (.inr rfl))⟩
  cases floatToInt_code h with
  | inPlace dst hwidth =>
    cases dst
    exact encoded_singleton (Machine.encodes_cvtts2si hsrc (hwide hwidth).1)
  | moved hwidth hresult =>
    exact .cons (Machine.encodes_cvtts2si hsrc (hwide hwidth).1)
      (encoded_move hd (soundOption_some (sound_r11 (hwide hwidth).2)) hresult)

theorem encoded_floatToFloat {d : Option Machine.Operand} {x : Machine.Operand} {code : List Inst}
    (hd : SoundOption d) (hx : x.Sound) (hk : IsFloatKind x)
    (h : floatToFloat d (some x) = .ok code) : Encoded code := by
  obtain ⟨z, hz, hzw⟩ := exists_xmm_of_worksIn (worksIn_workXmm (d := d))
  obtain ⟨result, hresult, rfl⟩ := floatToFloat_code h
  have hw := isWidth_of_move hd hresult
  rw [← hzw] at hw
  rw [hz] at hresult ⊢
  exact .cons (Machine.encodes_scalar rfl (isXmmOrMem_of_kind hx hk))
    (encoded_move hd (soundOption_some (show (Machine.Operand.xmm z).Sound from hw)) hresult)

/-! ## Comparisons -/

theorem isWidth_of_floatKind {m : Machine.Operand} (h : m.Sound) (hk : IsFloatKind m) :
    Machine.IsWidth (opWidth (some m)) := by
  cases m with
  | xmm x => exact h
  | mem m => exact h.1
  | reg r | imm v | target t => exact absurd hk id

theorem isWidth_of_intKind {m : Machine.Operand} (h : m.Sound) (hk : IsIntKind m)
    (himm : ∀ v, m ≠ .imm v) : Machine.IsWidth (opWidth (some m)) := by
  cases m with
  | reg r => exact h
  | mem m => exact h.1
  | imm v => exact absurd rfl (himm v)
  | xmm x | target t => exact absurd hk id

theorem isGprOrMem_of_intKind {m : Machine.Operand} (h : m.Sound) (hk : IsIntKind m)
    (himm : ∀ v, m ≠ .imm v) : m.IsGprOrMem (opWidth (some m)) := by
  cases m with
  | reg r => rfl
  | mem m => exact ⟨rfl, h.2⟩
  | imm v => exact absurd rfl (himm v)
  | xmm x | target t => exact absurd hk id

theorem ne_zero_of_isWidth {w : UInt8} (h : Machine.IsWidth w) : w ≠ 0 := by
  rcases h with rfl | rfl | rfl | rfl <;> decide

theorem compareWidth_of_isWidth {x y : Option Machine.Operand} (h : Machine.IsWidth (opWidth x)) :
    compareWidth x y = opWidth x :=
  if_neg (by simpa using ne_zero_of_isWidth h)

/-- A comparison has the width of an operand with one. -/
theorem isWidth_compareWidth {x y : Option Machine.Operand} (hx : SoundOption x)
    (h : Machine.IsWidth (opWidth y)) : Machine.IsWidth (compareWidth x y) := by
  unfold compareWidth
  split
  · exact h
  · rename_i hne
    cases x with
    | none => exact absurd rfl hne
    | some m =>
      have hm := hx m rfl
      cases m with
      | reg r => exact hm
      | xmm x => exact hm
      | mem m => exact hm.1
      | imm v | target t => exact absurd rfl hne

/-- A comparison. Integers are compared with a register or memory on the left, and not memory with
memory. -/
theorem encoded_compare {x y : Option Machine.Operand} {float : Bool} {code : List Inst}
    (hx : SoundOption x) (hy : SoundOption y)
    (hint : float = false → ∃ m n, x = some m ∧ y = some n ∧ IsIntKind m ∧ IsIntKind n ∧
      (∀ v, m ≠ .imm v) ∧ ∀ v, n = .imm v → Machine.fitsInt32 v = true)
    (h : compare x y float = .ok code) : Encoded code := by
  cases compare_code h with
  | float _ hload hkind =>
    obtain ⟨m, rfl, hmk⟩ := exists_floatKind hkind
    have hw := isWidth_compareWidth hx (isWidth_of_floatKind (hy m rfl) hmk)
    obtain ⟨hloads, z, rfl⟩ := encoded_loaded (sound_xmm15 hw) hx hload
    exact hloads.append (encoded_singleton
      (Machine.encodes_scalar rfl (isXmmOrMem_resize (hy m rfl) hmk _)))
  | loaded hfloat hload =>
    obtain ⟨m, n, rfl, rfl, hmk, hnk, himm, hfit⟩ := hint hfloat
    have hw := isWidth_of_intKind (hx m rfl) hmk himm
    rw [compareWidth_of_isWidth hw] at hload ⊢
    have hsrc := isAluSource_resize (hy n rfl) hnk hw fun v hv _ => hfit v hv
    refine (encoded_move (soundOption_some (sound_r11 hw)) hx hload).append (encoded_singleton ?_)
    exact Machine.encodes_alu rfl (show (Machine.Operand.reg (r11 _)).IsGprOrMem _ from rfl) hsrc
      (.inl ⟨_, rfl⟩)
  | inPlace hfloat _ hpair =>
    obtain ⟨m, n, rfl, rfl, hmk, hnk, himm, hfit⟩ := hint hfloat
    have hw := isWidth_of_intKind (hx m rfl) hmk himm
    rw [compareWidth_of_isWidth hw]
    have hsrc := isAluSource_resize (hy n rfl) hnk hw fun v hv _ => hfit v hv
    refine encoded_singleton
      (Machine.encodes_alu rfl (isGprOrMem_of_intKind (hx m rfl) hmk himm) hsrc ?_)
    cases m with
    | reg r => exact .inl ⟨r, rfl⟩
    | _ =>
      refine .inr fun k hk => ?_
      cases n with
      | mem k => cases hpair rfl
      | _ => cases hk

theorem encoded_setCond {cond : Machine.Cond} {d : Option Machine.Operand} {code : List Inst}
    (hd : SoundOption d) (h : setCond cond d = .ok code) : Encoded code := by
  cases setCond_code h with
  | byte hone hxmm =>
    cases d with
    | none => cases hone
    | some m =>
      refine encoded_singleton (Machine.encodes_setcc ?_)
      cases m with
      | reg r => exact hone
      | mem m => exact ⟨hone, (hd _ rfl).2⟩
      | xmm x => cases hxmm
      | imm v | target t => cases hone
  | widened hresult =>
    have hwide : Machine.IsWidth (max (opWidth d) 4) := by
      rcases isWidth_of_move hd hresult with h | h | h | h <;> rw [h]
      · exact .inr (.inr (.inl rfl))
      · exact .inr (.inr (.inl rfl))
      · exact .inr (.inr (.inl rfl))
      · exact .inr (.inr (.inr rfl))
    have hbyte : (Machine.Operand.reg (r11 1)).IsGprOrMem 1 := rfl
    have hzero : (two .movzx (.reg (r11 4)) (.reg (r11 1))).Encodes :=
      @Machine.encodes_extend _ none _ (r11 4) false 1 hbyte (show (1 : UInt8) < 4 by decide)
    exact .cons (Machine.encodes_setcc hbyte) (.cons hzero
      (encoded_move hd (soundOption_some (sound_r11 hwide)) hresult))

/-! ## Addresses and the stack -/

theorem encoded_lea {c : Closure} {i : Instr} {d : Option Machine.Operand} {code : List Inst}
    (hd : SoundOption d) (hsrc : ∀ o m, i.first = some o → operand c o = .ok m → m.Sound)
    (h : lea c i d = .ok code) : Encoded code := by
  obtain ⟨m, haddress, hcode⟩ := lea_code.mp h
  have hm : m.addr.Encodes := by
    cases hfirst : i.first with
    | none =>
      rw [hfirst] at haddress
      cases haddress
    | some o =>
      rw [hfirst] at haddress
      have hmem : ∃ w, operand c o = .ok (.mem (m.sized w)) := by
        cases haddress with
        | @symbol s hshared => exact ⟨widthOf s.ty, by simp [operand, hshared]; rfl⟩
        | indirect found => exact ⟨m.width, by simp only [operand, found]; rfl⟩
      obtain ⟨w, hmem⟩ := hmem
      exact (hsrc _ _ hfirst hmem).2
  cases hcode with
  | inPlace dst hwidth =>
    cases dst
    exact encoded_singleton (Machine.encodes_lea hwidth hm)
  | moved _ hresult =>
    exact .cons (Machine.encodes_lea (show (4 : UInt8) ≤ 8 by decide) hm)
      (encoded_move hd (soundOption_some (sound_r11 (.inr (.inr (.inr rfl))))) hresult)

theorem encoded_clear {d : Option Machine.Operand} {code : List Inst} (hd : SoundOption d)
    (h : clear d = .ok code) : Encoded code := by
  unfold clear at h
  split at h
  · cases h
    exact encoded_singleton (Machine.encodes_scalar rfl trivial)
  · cases h
    exact encoded_singleton (Machine.encodes_alu rfl (show (Machine.Operand.reg _).IsGprOrMem 4
      from rfl) rfl (.inl ⟨_, rfl⟩))
  · rename_i m
    cases h
    refine encoded_singleton (Machine.encodes_mov_mem_imm (hd _ rfl).2 ?_)
    unfold Fits
    split_ifs <;> decide
  · cases h

theorem encoded_push {x : Option Machine.Operand} {code : List Inst} (hx : SoundOption x)
    (hfit : ∀ v, x = some (.imm v) → Machine.fitsInt32 v = true) (h : push x = .ok code) :
    Encoded code := by
  unfold push at h
  split at h
  · cases h
    exact encoded_singleton (Machine.encodes_push_reg rfl)
  · cases h
    exact encoded_singleton (Machine.encodes_push_mem (hx _ rfl).2)
  · cases h
    exact encoded_singleton (Machine.encodes_push_imm (hfit _ rfl))
  · cases h

theorem encoded_pop {d : Option Machine.Operand} {code : List Inst} (hd : SoundOption d)
    (h : pop d = .ok code) : Encoded code := by
  unfold pop at h
  split at h
  · cases h
    exact encoded_singleton (Machine.encodes_pop_reg rfl)
  · cases h
    exact encoded_singleton (Machine.encodes_pop_mem (hd _ rfl).2)
  · cases h

theorem encoded_call {i : Instr} {code : List Inst} (h : call i = .ok code) : Encoded code := by
  cases call_code h with
  | direct =>
    intro j hj hdirect
    cases List.mem_singleton.mp hj
    cases hdirect
  | indirect => exact encoded_singleton (Machine.encodes_call_reg rfl)

theorem encodes_frame (disp : Int32) (w : UInt8) :
    (Machine.Memory.ofBase ⟨Machine.rbp, 8⟩ disp w).addr.Encodes := by
  refine Machine.Address.encodes_regs ?_ ?_ (.inl (by simp))
  · rintro r hr
    cases hr
    rfl
  · intro r scale h
    cases h

theorem encoded_epilogue (c : Closure) : Encoded (epilogue c) := by
  unfold epilogue
  refine Encoded.append ?_ (.cons (Machine.encodes_mov_reg_reg rfl)
    (.cons (Machine.encodes_pop_reg rfl) (encoded_singleton ⟨_, rfl⟩)))
  intro i hi _
  obtain ⟨s, -, rfl⟩ := List.mem_map.mp hi
  exact Machine.encodes_mov_reg_mem (encodes_frame _ _)

end Backend.Selection
