-- What selected code touches: no more than the operands it is selected from, the scratch registers,
-- and the registers behind divisions and the stack. The accesses of a lowered instruction account
-- for all of it.
import Backend.Proofs.Lowering.Emitted
import Backend.Proofs.Schedule.Coverage
import Backend.Proofs.Selection.Shape

namespace Backend.Selection

open Backend.Machine (Footprint Inst touch)
open Backend.Schedule (Access)
open Backend.Schedule.Access (covers_append covers_empty covers_locate coversWrite_r11
  coversWrite_xmm14 coversWrite_xmm15)
open Backend.Lowering (DividesInPlace dividesInPlace_of_lower isDivision opType)

variable {acc : Access}

/-- The accesses account for every instruction of the code. -/
def Covered (acc : Access) (code : List Inst) : Prop := ∀ i ∈ code, acc.Covers i.footprint

theorem covered_nil (acc : Access) : Covered acc [] := by
  intro i hi
  cases hi

theorem covered_singleton {i : Inst} (h : acc.Covers i.footprint) : Covered acc [i] := by
  intro j hj
  cases List.mem_singleton.mp hj
  exact h

theorem Covered.append {xs ys : List Inst} (hx : Covered acc xs) (hy : Covered acc ys) :
    Covered acc (xs ++ ys) := by
  intro i hi
  exact (List.mem_append.mp hi).elim (hx i) (hy i)

theorem Covered.cons {i : Inst} {code : List Inst} (hi : acc.Covers i.footprint)
    (h : Covered acc code) : Covered acc (i :: code) :=
  (covered_singleton hi).append h

/-! ## Running covered code -/

theorem mem_scratchKeys_iff (id : Machine.RegId) :
    id.toNat ∈ Schedule.scratchKeys ↔ id = Machine.r11 := by
  have hlt := id.toNat_lt
  simp only [Schedule.scratchKeys, r11, xmm14, xmm15, Machine.Reg.key, Machine.Xmm.key,
    List.mem_cons, List.not_mem_nil, or_false, ← UInt8.toNat_inj]
  constructor
  · rintro (h | h | h)
    · exact h
    · rw [h] at hlt
      exact absurd hlt (by decide)
    · rw [h] at hlt
      exact absurd hlt (by decide)
  · exact .inl

/-- Covered code changes no register that its accesses do not write, the scratch register apart, and
memory only if they write it. -/
theorem Covered.frame {l : Machine.Linkage} {s s' : Machine.State} {code : List Inst}
    (hc : Covered acc code) (h : Machine.run l code s = some s') :
    (∀ id : Machine.RegId, .reg id.toNat ∉ acc.writes → id ≠ Machine.r11 →
      s'.regs id = s.regs id) ∧ (acc.memWrite = false → s'.mem = s.mem) := by
  have hcov := Access.covers_footprint.mpr hc
  obtain ⟨hregs, -, hmem⟩ := Machine.run_frame h
  constructor
  · intro id hid hne
    apply hregs
    intro hw
    exact hid (hcov.writes _ hw (by rwa [mem_scratchKeys_iff]))
  · intro hm
    apply hmem
    cases hs : (Machine.footprint code).stores with
    | false => rfl
    | true =>
      rw [hcov.stores hs] at hm
      cases hm

/-- Covered code has the same outcome from states that agree on what its accesses record and on the
scratch registers. -/
theorem Covered.congr {l : Machine.Linkage} {s s' t : Machine.State} {code : List Inst}
    (hc : Covered acc code) (h : Machine.run l code s = some s')
    (hregs : ∀ id : Machine.RegId, .reg id.toNat ∈ acc.reads ∨ .reg id.toNat ∈ acc.writes ∨
      id = Machine.r11 → s.regs id = t.regs id)
    (hxmms : s.xmms = t.xmms) (hmem : acc.memRead = true ∨ acc.memWrite = true → s.mem = t.mem) :
    ∃ t', Machine.run l code t = some t' ∧ (Machine.footprint code).Agree s' t' := by
  have hcov := Access.covers_footprint.mpr hc
  have hagree : (Machine.footprint code).Agree s t := by
    refine ⟨fun id hid => hregs id ?_, fun id _ => by rw [hxmms], fun hm => hmem ?_⟩
    · by_cases hne : id = Machine.r11
      · exact .inr (.inr hne)
      · have hs : id.toNat ∉ Schedule.scratchKeys := by rwa [mem_scratchKeys_iff]
        rcases List.mem_append.mp hid with hid | hid
        · exact (hcov.reads _ hid hs).imp_right .inl
        · exact .inr (.inl (hcov.writes _ hid hs))
    · rcases Bool.or_eq_true_iff.mp hm with hm | hm
      · exact hcov.loads hm
      · exact .inr (hcov.stores hm)
  exact Machine.run_congr h hagree hagree

/-! ## Single instructions -/

theorem coversRead_none (acc : Access) : acc.CoversRead none := covers_empty acc

theorem coversRead_imm (acc : Access) (v : Int64) : acc.CoversRead (some (.imm v)) :=
  covers_empty acc

theorem coversRead_r11 (acc : Access) (w : UInt8) : acc.CoversRead (some (.reg (r11 w))) :=
  (coversWrite_r11 acc w).read

/-- An instruction touches its operands and what its operation implies. -/
theorem covers_op {f : Machine.Op} {cond : Machine.Cond} {dst src src2 : Option Machine.Operand}
    (hf : acc.Covers f.implied) (hr : acc.CoversRead dst)
    (hw : f.writesDst = true → acc.CoversWrite dst) (hs : acc.CoversRead src)
    (h2 : acc.CoversRead src2) : acc.Covers (Inst.op f cond dst src src2).footprint := by
  simp only [Inst.footprint, covers_append]
  refine ⟨⟨⟨⟨hf, ?_⟩, ?_⟩, ?_⟩, h2⟩
  · split
    · exact hr
    · exact covers_empty acc
  · split
    · rename_i h
      exact hw h
    · exact covers_empty acc
  · split
    · exact covers_locate hs
    · exact hs

/-- An instruction that gives its destination a value. -/
theorem covers_inst {f : Machine.Op} {dst src : Option Machine.Operand} (hf : f.implied = .empty)
    (hd : acc.CoversWrite dst) (hs : acc.CoversRead src) : acc.Covers (inst f dst src).footprint :=
  covers_op (hf ▸ covers_empty acc) hd.read (fun _ => hd) hs (coversRead_none acc)

/-- An instruction that only reads its operands. -/
theorem covers_reading {f : Machine.Op} {cond : Machine.Cond} {dst src : Option Machine.Operand}
    (hf : acc.Covers f.implied) (hw : f.writesDst = false) (hd : acc.CoversRead dst)
    (hs : acc.CoversRead src) : acc.Covers (Inst.op f cond dst src none).footprint :=
  covers_op hf hd (fun h => absurd h (by simp [hw])) hs (coversRead_none acc)

/-! ## Moves -/

theorem covered_moveRegReg {d s : Machine.Reg} (signed : Bool)
    (hd : acc.CoversWrite (some (.reg d))) (hs : acc.CoversRead (some (.reg s))) :
    Covered acc (moveRegReg d s signed) := by
  unfold moveRegReg extend
  split
  · exact covered_nil acc
  split
  · exact covered_singleton (covers_inst rfl hd hs)
  split
  · cases signed <;> exact covered_singleton (covers_inst rfl hd hs)
  split
  · exact covered_singleton (covers_inst rfl hd hs)
  · exact covered_nil acc

theorem covered_moveRegMem {d : Machine.Reg} {m : Machine.Memory} (signed : Bool)
    (hd : acc.CoversWrite (some (.reg d))) (hs : acc.CoversRead (some (.mem m))) :
    Covered acc (moveRegMem d m signed) := by
  unfold moveRegMem extend
  split
  · exact covered_singleton (covers_inst rfl hd hs)
  split
  · cases signed <;> exact covered_singleton (covers_inst rfl hd hs)
  · exact covered_singleton (covers_inst rfl hd hs)

theorem covered_moveMemReg {d : Machine.Memory} {s : Machine.Reg} (signed : Bool)
    (hd : acc.CoversWrite (some (.mem d))) (hs : acc.CoversRead (some (.reg s))) :
    Covered acc (moveMemReg d s signed) := by
  have hstore : Covered acc [two .mov (.mem d) (.reg (r11 d.width))] :=
    covered_singleton (covers_inst rfl hd (coversRead_r11 acc _))
  unfold moveMemReg extend
  split
  · exact covered_singleton (covers_inst rfl hd hs)
  · cases signed <;> exact .cons (covers_inst rfl (coversWrite_r11 acc _) hs) hstore

theorem covered_moveToXmm {d : Machine.Xmm} {s : Machine.Operand} {code : List Inst}
    (hd : acc.CoversWrite (some (.xmm d))) (hs : acc.CoversRead (some s))
    (h : moveToXmm d s = .ok code) : Covered acc code := by
  have h11 := coversWrite_r11 acc
  cases s with
  | xmm y =>
    cases h
    split
    · exact covered_singleton (covers_inst rfl hd hs)
    · exact covered_nil acc
  | mem m =>
    cases h
    exact covered_singleton (covers_inst rfl hd hs)
  | reg r =>
    simp only [moveToXmm] at h
    split at h
    · cases h
    · cases h
      exact covered_singleton (covers_inst rfl hd hs)
  | imm v =>
    cases h
    split
    · exact covered_singleton (covers_inst rfl hd hd.read)
    · exact .cons (covers_inst rfl (h11 8) hs) (covered_singleton (covers_inst rfl hd (h11 _).read))
  | target t => cases h

theorem covered_moveToReg {d : Machine.Reg} {s : Machine.Operand} {signed : Bool} {code : List Inst}
    (hd : acc.CoversWrite (some (.reg d))) (hs : acc.CoversRead (some s))
    (h : moveToReg d s signed = .ok code) : Covered acc code := by
  have h11 := coversWrite_r11 acc
  cases s with
  | xmm y =>
    cases h
    split
    · exact covered_singleton (covers_inst rfl hd hs)
    · exact .cons (covers_inst rfl (h11 4) hs) (covered_moveRegReg signed hd (h11 _).read)
  | reg r =>
    cases h
    exact covered_moveRegReg signed hd hs
  | mem m =>
    cases h
    exact covered_moveRegMem signed hd hs
  | imm v =>
    cases h
    exact covered_singleton (covers_inst rfl hd (coversRead_imm acc _))
  | target t => cases h

theorem covered_moveToMem {d : Machine.Memory} {s : Machine.Operand} {signed : Bool}
    {code : List Inst} (hd : acc.CoversWrite (some (.mem d))) (hs : acc.CoversRead (some s))
    (h : moveToMem d s signed = .ok code) : Covered acc code := by
  have h11 := coversWrite_r11 acc
  cases s with
  | reg r =>
    cases h
    exact covered_moveMemReg signed hd hs
  | xmm x =>
    cases h
    split
    · exact covered_singleton (covers_inst rfl hd hs)
    · exact .cons (covers_inst rfl (h11 _) hs) (covered_moveMemReg signed hd (h11 _).read)
  | mem m =>
    cases h
    exact (covered_moveRegMem signed (h11 _) hs).append
      (covered_singleton (covers_inst rfl hd (h11 _).read))
  | imm v =>
    cases h
    split
    · exact covered_singleton (covers_inst rfl hd (coversRead_imm acc _))
    · exact .cons (covers_inst rfl (h11 8) hs) (covered_singleton (covers_inst rfl hd (h11 8).read))
  | target t => cases h

/-- A move touches its operands and the scratch register. -/
theorem covered_move {d s : Option Machine.Operand} {signed : Bool} {code : List Inst}
    (hd : acc.CoversWrite d) (hs : acc.CoversRead s) (h : move d s signed = .ok code) :
    Covered acc code := by
  unfold move at h
  split at h
  · cases h
    exact covered_nil acc
  split at h
  · exact covered_moveToXmm hd hs h
  · exact covered_moveToReg hd hs h
  · exact covered_moveToMem hd hs h
  · cases h

/-! ## Integers -/

theorem coversWrite_workReg {d : Option Machine.Operand} (hd : acc.CoversWrite d) :
    acc.CoversWrite (workReg d) := by
  unfold workReg
  split
  · exact hd
  · exact coversWrite_r11 acc _

theorem covered_binary {op : Machine.Op} {d x y : Option Machine.Operand}
    {commutative signed : Bool} {code : List Inst} (hop : op.implied = .empty)
    (hd : acc.CoversWrite d) (hx : acc.CoversRead x) (hy : acc.CoversRead y)
    (h : binary op d x y commutative signed = .ok code) : Covered acc code := by
  have h11 := coversWrite_r11 acc (opWidth d)
  rcases binary_cases h with ⟨r, load, -, -, hload, rfl⟩ | ⟨r, load, -, -, -, -, hload, rfl⟩ |
    ⟨load, result, hload, hresult, rfl⟩
  · exact (covered_move hd hx hload).append (covered_singleton (covers_inst hop hd hy))
  · exact (covered_move hd hy hload).append (covered_singleton (covers_inst hop hd (hx.resize _)))
  · exact ((covered_move h11 hx hload).append (covered_singleton (covers_inst hop h11 hy))).append
      (covered_move hd h11.read hresult)

theorem covered_mul {d x y : Option Machine.Operand} {signed : Bool} {code : List Inst}
    (hd : acc.CoversWrite d) (hx : acc.CoversRead x) (hy : acc.CoversRead y)
    (h : mul d x y signed = .ok code) : Covered acc code := by
  have h11 := coversWrite_r11 acc
  rcases mul_cases h with ⟨-, load, product, result, hload, hproduct, hresult, rfl⟩ |
    ⟨-, k, load, src, result, -, hsrc, hresult, rfl⟩ | ⟨-, -, h⟩
  · have hp : acc.Covers product.footprint := by
      rcases hproduct with ⟨k, -, rfl⟩ | ⟨r, rfl, rfl⟩
      · exact covers_op (f := .imul) (covers_empty acc) (h11 4).read (fun _ => h11 4) (h11 4).read
          (coversRead_imm acc k)
      · exact covers_inst rfl (h11 4) hy
    exact ((covered_move (h11 4) (hx.resize 1) hload).append (covered_singleton hp)).append
      (covered_move hd (h11 1).read hresult)
  · have hw := coversWrite_workReg hd
    have hs : Covered acc load ∧ acc.CoversRead src := by
      rcases hsrc with ⟨-, hload, rfl⟩ | ⟨-, rfl, rfl⟩
      · exact ⟨covered_move hw hx hload, hw.read⟩
      · exact ⟨covered_nil acc, hx.resize _⟩
    exact (hs.1.append (covered_singleton
      (covers_op (f := .imul) (covers_empty acc) hw.read (fun _ => hw) hs.2
        (coversRead_imm acc _)))).append
      (covered_move hd hw.read hresult)
  · exact covered_binary rfl hd hx (hy.resize _) h

theorem covered_unary {op : Machine.Op} {d x : Option Machine.Operand} {signed : Bool}
    {code : List Inst} (hop : op.implied = .empty) (hd : acc.CoversWrite d)
    (hx : acc.CoversRead x) (h : unary op d x signed = .ok code) : Covered acc code := by
  have hw := coversWrite_workReg hd
  obtain ⟨load, result, hload, hresult, rfl⟩ := unary_code h
  exact ((covered_move hw hx hload).append
    (covered_singleton (covers_inst hop hw (coversRead_none acc)))).append
    (covered_move hd hw.read hresult)

theorem coversRead_shiftCount {w : UInt8} {y : Option Machine.Operand} {count : Machine.Operand}
    (hy : acc.CoversRead y) (h : shiftCount w y = .ok count) : acc.CoversRead (some count) := by
  cases shiftCount_form h with
  | literal n => exact coversRead_imm acc _
  | @cl r rcx =>
    obtain ⟨id, width⟩ := r
    obtain rfl : id = Machine.rcx := rcx
    exact hy

/-- A division touches rax and rdx besides the divisor. -/
theorem covered_divide {op : Opcode} {x y : Option Machine.Operand} {code : List Inst}
    (hx : acc.CoversRead x) (hy : acc.CoversRead y) (hrax : .reg Machine.rax.toNat ∈ acc.writes)
    (hrdx : .reg Machine.rdx.toNat ∈ acc.writes) (h : divide op x y = .ok code) :
    Covered acc code := by
  have hdiv : acc.Covers Machine.Op.div.implied := by
    constructor <;> simp [Machine.Op.implied, hrax, hrdx]
  have hcqo : acc.Covers Machine.Op.cqo.implied := by
    constructor <;> simp [Machine.Op.implied, hrax, hrdx]
  have hzero : acc.CoversWrite (some (.reg ⟨Machine.rdx, 4⟩)) := by
    constructor <;> simp [touch, Machine.Operand.write, Machine.Reg.key, hrdx]
  have hdivides : ∀ (op : Machine.Op) (w : UInt8), op.implied = Machine.Op.div.implied →
      op.writesDst = false → acc.Covers (inst op (y.map fun o => resize o w) none).footprint :=
    fun _ _ himplied hdst => covers_reading (himplied ▸ hdiv) hdst (hy.resize _)
      (coversRead_none acc)
  cases divide_code h with
  | signed =>
    exact .cons (covers_reading hcqo rfl hx (coversRead_none acc))
      (covered_singleton (hdivides .idiv _ rfl rfl))
  | unsigned =>
    exact .cons (covers_inst rfl hzero hzero.read) (covered_singleton (hdivides .div _ rfl rfl))

/-! ## Floats -/

theorem coversWrite_of_worksIn {d work : Option Machine.Operand} (h : WorksIn d work)
    (hd : acc.CoversWrite d) : acc.CoversWrite work := by
  rcases h with ⟨-, rfl⟩ | rfl
  · exact hd
  · exact coversWrite_xmm15 acc _

/-- A source that has been loaded may be read, and loading it touches nothing else. -/
theorem covered_loaded {x : Machine.Xmm} {a left : Option Machine.Operand} {load : List Inst}
    (hx : acc.CoversWrite (some (.xmm x))) (ha : acc.CoversRead a) (h : LoadedIn x a left load) :
    Covered acc load ∧ acc.CoversRead left := by
  rcases h with ⟨-, rfl, rfl⟩ | ⟨rfl, hload⟩
  · exact ⟨covered_nil acc, ha⟩
  · exact ⟨covered_move hx ha hload, hx.read⟩

theorem covered_floatBinary {op : Machine.Op} {d x y : Option Machine.Operand} {commutative : Bool}
    {code : List Inst} (hop : op.implied = .empty) (hd : acc.CoversWrite d)
    (hx : acc.CoversRead x) (hy : acc.CoversRead y)
    (h : floatBinary op d x y commutative = .ok code) : Covered acc code := by
  obtain @⟨left, right, work, load, result, hsources, hwork, -, hload, hresult⟩ :=
    floatBinary_code h
  have hw := coversWrite_of_worksIn hwork hd
  have hsrc : acc.CoversRead left ∧ acc.CoversRead right := by
    rcases hsources with ⟨rfl, rfl⟩ | ⟨rfl, rfl⟩
    · exact ⟨hx, hy.resize _⟩
    · exact ⟨hy.resize _, hx.resize _⟩
  exact ((covered_move hw hsrc.1 hload).append
    (covered_singleton (covers_inst hop hw hsrc.2))).append (covered_move hd hw.read hresult)

theorem covered_floatNeg {d x : Option Machine.Operand} {code : List Inst}
    (hd : acc.CoversWrite d) (hx : acc.CoversRead x) (h : floatNeg d x = .ok code) :
    Covered acc code := by
  have h11 := coversWrite_r11 acc (opWidth d)
  obtain ⟨load, result, hload, hresult, rfl⟩ := floatNeg_code h
  exact ((covered_move h11 hx hload).append
    (covered_singleton (covers_inst rfl h11 (coversRead_imm acc _)))).append
    (covered_move hd h11.read hresult)

theorem covered_intToFloat {d x : Option Machine.Operand} {signed : Bool} {code : List Inst}
    (hd : acc.CoversWrite d) (hx : acc.CoversRead x) (h : intToFloat d x signed = .ok code) :
    Covered acc code := by
  have hw := coversWrite_of_worksIn worksIn_workXmm hd
  have h11 := coversWrite_r11 acc (conversionWidth x signed)
  cases intToFloat_code h with
  | inPlace _ hresult => exact .cons (covers_inst rfl hw hx) (covered_move hd hw.read hresult)
  | widened _ hload hresult =>
    exact ((covered_move h11 hx hload).append
      (covered_singleton (covers_inst rfl hw h11.read))).append (covered_move hd hw.read hresult)

theorem covered_floatToInt {d x : Option Machine.Operand} {signed : Bool} {code : List Inst}
    (hd : acc.CoversWrite d) (hx : acc.CoversRead x) (h : floatToInt d x signed = .ok code) :
    Covered acc code := by
  cases floatToInt_code h with
  | inPlace => exact covered_singleton (covers_inst rfl hd hx)
  | moved _ hresult =>
    exact .cons (covers_inst rfl (coversWrite_r11 acc _) hx)
      (covered_move hd (coversRead_r11 acc _) hresult)

theorem covered_floatToFloat {d x : Option Machine.Operand} {code : List Inst}
    (hd : acc.CoversWrite d) (hx : acc.CoversRead x) (h : floatToFloat d x = .ok code) :
    Covered acc code := by
  have hw := coversWrite_of_worksIn worksIn_workXmm hd
  obtain ⟨result, hresult, rfl⟩ := floatToFloat_code h
  exact .cons (covers_inst rfl hw hx) (covered_move hd hw.read hresult)

theorem implied_of_fused {op : Opcode} {f : Machine.Op} (h : fusedOp? op = some f) :
    f.implied = .empty := by
  cases op <;> cases h <;> rfl

theorem implied_of_float {op : Opcode} {f : Machine.Op} (h : floatOp? op = some f) :
    f.implied = .empty := by
  cases op <;> cases h <;> rfl

theorem implied_of_int {op : Opcode} {f : Machine.Op} (h : intOp? op = some f) :
    f.implied = .empty := by
  cases op <;> cases h <;> rfl

theorem covered_fused {c : Closure} {i : Instr} {d x y : Option Machine.Operand} {code : List Inst}
    (hd : acc.CoversWrite d) (hx : acc.CoversRead x) (hy : acc.CoversRead y)
    (hz : ∀ z, required c i.addend = .ok z → acc.CoversRead (some z))
    (h : fused c i d x y = .ok code) : Covered acc code := by
  obtain @⟨f, addend, work, left, load, factor, result, hfound, -, hadds, hwork, hload, hfactor,
    hresult⟩ :=
    fused_code h
  have hw := coversWrite_of_worksIn hwork hd
  obtain ⟨hfactors, hleft⟩ := covered_loaded (coversWrite_xmm14 acc (opWidth d)) hx hfactor
  have hfma : acc.Covers (Inst.op f ⟨0⟩ work left
      (y.map fun o => resize o (opWidth d))).footprint :=
    covers_op (implied_of_fused hfound ▸ covers_empty acc) hw.read (fun _ => hw) hleft (hy.resize _)
  exact (((covered_move hw (hz _ hadds) hload).append hfactors).append
    (covered_singleton hfma)).append (covered_move hd hw.read hresult)

/-! ## Comparisons -/

theorem covered_compare {x y : Option Machine.Operand} {float : Bool} {code : List Inst}
    (hx : acc.CoversRead x) (hy : acc.CoversRead y) (h : compare x y float = .ok code) :
    Covered acc code := by
  have h11 := coversWrite_r11 acc (compareWidth x y)
  have h15 := coversWrite_xmm15 acc (compareWidth x y)
  have hflags : ∀ (f : Machine.Op) (left : Option Machine.Operand), f.implied = .empty →
      f.writesDst = false → acc.CoversRead left →
      acc.Covers (inst f left (y.map fun o => resize o (compareWidth x y))).footprint := by
    intro f left hf hwrites hleft
    exact covers_reading (hf ▸ covers_empty acc) hwrites hleft (hy.resize _)
  cases compare_code h with
  | float _ hload =>
    obtain ⟨hloads, hleft⟩ := covered_loaded h15 hx hload
    exact hloads.append (covered_singleton (hflags .ucomis _ rfl rfl hleft))
  | loaded _ hload =>
    exact (covered_move h11 hx hload).append (covered_singleton (hflags .cmp _ rfl rfl h11.read))
  | inPlace => exact covered_singleton (hflags .cmp x rfl rfl hx)

theorem covered_setCond {cond : Machine.Cond} {d : Option Machine.Operand} {code : List Inst}
    (hd : acc.CoversWrite d) (h : setCond cond d = .ok code) : Covered acc code := by
  have h11 := coversWrite_r11 acc
  have hset : ∀ dst, acc.CoversWrite dst →
      acc.Covers (Inst.op .setcc cond dst none none).footprint := by
    intro dst hdst
    exact covers_op (covers_empty acc) hdst.read (fun _ => hdst) (coversRead_none acc)
      (coversRead_none acc)
  cases setCond_code h with
  | byte => exact covered_singleton (hset d hd)
  | widened hresult =>
    exact .cons (hset _ (h11 1)) (.cons (covers_inst rfl (h11 4) (h11 1).read)
      (covered_move hd (h11 _).read hresult))

/-! ## Addresses and the stack -/

theorem covers_lea {d : Option Machine.Operand} {m : Machine.Memory} (hd : acc.CoversWrite d)
    (hm : ∀ k ∈ m.addr.keys, .reg k ∈ acc.reads) :
    acc.Covers (inst .lea d (some (.mem m))).footprint := by
  have hloc : acc.Covers (Machine.Operand.mem m).locate := by
    constructor <;> simp [Machine.Operand.locate]
    exact fun k hk _ => .inl (hm k hk)
  simp only [inst, Inst.footprint, covers_append]
  exact ⟨⟨⟨⟨covers_empty acc, covers_empty acc⟩, hd⟩, hloc⟩, covers_empty acc⟩

/-- An address computation reads the registers of the address and no memory. -/
theorem covered_lea {c : Closure} {i : Instr} {d : Option Machine.Operand} {code : List Inst}
    (hd : acc.CoversWrite d)
    (hp : ∀ p ∈ (i.first.map Instr.addressParts).getD [],
      acc.Records Target.roles c.locations false p)
    (h : lea c i d = .ok code) : Covered acc code := by
  obtain ⟨m, haddress, hcode⟩ := lea_code.mp h
  have hm : ∀ k ∈ m.addr.keys, .reg k ∈ acc.reads := by
    cases hfirst : i.first with
    | none =>
      rw [hfirst] at haddress
      cases haddress
    | some o =>
      rw [hfirst] at haddress hp
      cases haddress with
      | symbol => exact fun k hk => by cases hk
      | indirect found => exact Schedule.keys_of_memory found hp
  cases hcode with
  | inPlace => exact covered_singleton (covers_lea hd hm)
  | moved _ hresult =>
    exact .cons (covers_lea (coversWrite_r11 acc 8) hm)
      (covered_move hd (coversRead_r11 acc 8) hresult)

theorem covered_clear {d : Option Machine.Operand} {code : List Inst} (hd : acc.CoversWrite d)
    (h : clear d = .ok code) : Covered acc code := by
  unfold clear at h
  split at h
  · cases h
    exact covered_singleton (covers_inst rfl hd hd.read)
  · cases h
    exact covered_singleton (covers_inst rfl hd hd.read)
  · cases h
    exact covered_singleton (covers_inst rfl hd (coversRead_imm acc 0))
  · cases h

theorem covered_push {x : Option Machine.Operand} {code : List Inst} (hx : acc.CoversRead x)
    (hsp : acc.Covers Machine.Op.push.implied) (h : push x = .ok code) : Covered acc code := by
  unfold push at h
  split at h
  · cases h
    exact covered_singleton (covers_reading hsp rfl hx (coversRead_none acc))
  · cases h
    exact covered_singleton (covers_reading hsp rfl hx (coversRead_none acc))
  · cases h
    exact covered_singleton (covers_reading hsp rfl hx (coversRead_none acc))
  · cases h

theorem covered_pop {d : Option Machine.Operand} {code : List Inst} (hd : acc.CoversWrite d)
    (hsp : acc.Covers Machine.Op.pop.implied) (h : pop d = .ok code) : Covered acc code := by
  unfold pop at h
  split at h
  · cases h
    exact covered_singleton (covers_op hsp hd.read (fun _ => hd) (coversRead_none acc)
      (coversRead_none acc))
  · cases h
    exact covered_singleton (covers_op hsp hd.read (fun _ => hd) (coversRead_none acc)
      (coversRead_none acc))
  · cases h

/-! ## Instructions -/

section Instructions

variable {c : Closure} {i : Instr}

/-- What the scheduler records of an instruction. -/
abbrev accesses (c : Closure) (i : Instr) : Access := Schedule.access Target.roles c.locations i

theorem uses_of_selected (hop : isSelectedByOperands i.op = true) :
    i.uses = Instr.readsOption i.first ++ Instr.readsOption i.second ++
      Instr.readsOption i.addend ++
      if i.op.isBranch then [] else (i.output.map Instr.addressParts).getD [] := by
  unfold Instr.uses
  split
  · simp_all [isSelectedByOperands]
  · simp_all [isSelectedByOperands]
  · simp_all [isSelectedByOperands]
  · simp_all [isSelectedByOperands]
  · cases i.op.isBranch <;> simp

theorem mem_readOperands_of_source {p : Operand} (hop : isSelectedByOperands i.op = true)
    (hlea : i.op ≠ .lea)
    (hp : p ∈ Instr.readsOption i.first ++ Instr.readsOption i.second ++
      Instr.readsOption i.addend) :
    p ∈ Schedule.readOperands i := by
  unfold Schedule.readOperands
  rw [if_neg (by simpa using hlea), uses_of_selected hop]
  exact List.mem_append_left _ hp

theorem mem_readOperands_of_output {p : Operand} (hop : isSelectedByOperands i.op = true)
    (hbranch : i.op.isBranch = false) (hp : p ∈ (i.output.map Instr.addressParts).getD []) :
    p ∈ Schedule.readOperands i := by
  unfold Schedule.readOperands
  split
  · exact List.mem_append_right _ hp
  · rw [uses_of_selected hop, hbranch]
    exact List.mem_append_right _ hp

/-- A source that is recorded may be read. -/
theorem coversRead_of_source {o : Operand} {m : Machine.Operand} (h : operand c o = .ok m)
    (ho : ∀ p ∈ Instr.reads o, p ∈ Schedule.readOperands i) :
    (accesses c i).CoversRead (some m) := by
  have hrec : ∀ o, Instr.reads o = o :: Instr.addressParts o → operand c o = .ok m →
      (∀ p ∈ Instr.reads o, p ∈ Schedule.readOperands i) →
      (accesses c i).CoversRead (some m) := by
    intro o hreads h ho
    rw [hreads] at ho
    change Access.Covers _ (m.use false)
    exact Schedule.covers_of_records h (Schedule.records_of_read (ho o List.mem_cons_self))
      fun p hp => Schedule.records_of_read (ho p (List.mem_cons_of_mem o hp))
  cases o with
  | label l =>
    cases h
    exact covers_empty _
  | list items => cases h
  | _ => exact hrec _ rfl h ho

theorem coversRead_of_optional {o : Option Operand} {m : Option Machine.Operand}
    (h : optional c o = .ok m) (ho : ∀ p ∈ Instr.readsOption o, p ∈ Schedule.readOperands i) :
    (accesses c i).CoversRead m := by
  cases o with
  | none =>
    cases h
    exact coversRead_none _
  | some o =>
    obtain ⟨m', hm, h⟩ := bind_eq_ok.mp h
    cases h
    exact coversRead_of_source hm ho

/-- The output of an instruction that is no branch may be written. -/
theorem coversWrite_of_output {d : Option Machine.Operand} (hop : isSelectedByOperands i.op = true)
    (hbranch : i.op.isBranch = false) (h : outputOperand c i.output = .ok d) :
    (accesses c i).CoversWrite d := by
  have hlabel : i.op ≠ .label := by
    intro hl
    simp [hl, isSelectedByOperands] at hop
  have hrec : ∀ o, i.output = some o → i.defs = [o] → ∀ m, operand c o = .ok m →
      (accesses c i).CoversWrite (some m) := by
    intro o ho hdefs m hm
    change Access.Covers _ (m.use true)
    refine Schedule.covers_of_records hm (Schedule.records_of_def (by simp [hdefs]))
      fun p hp => Schedule.records_of_read ?_
    exact mem_readOperands_of_output hop hbranch (by simpa [ho] using hp)
  unfold outputOperand at h
  split at h
  · cases h
    exact covers_empty _
  · rename_i o hlist
    cases ho : i.output with
    | none =>
      rw [ho] at h
      cases h
      exact covers_empty _
    | some o =>
      rw [ho] at h
      obtain ⟨m, hm, h⟩ := bind_eq_ok.mp h
      cases h
      refine hrec o ho ?_ m hm
      unfold Instr.defs
      rw [if_neg (by simp [hbranch, hlabel]), ho]
      cases o with
      | list items => exact absurd ho (hlist items)
      | _ => rfl

theorem covers_stack (h : i.op = .push ∨ i.op = .pop) :
    (accesses c i).Covers Machine.Op.push.implied ∧
      (accesses c i).Covers Machine.Op.pop.implied := by
  obtain ⟨hsp, hmem⟩ := @Schedule.access_of_stack Target.roles c.locations i h
  have hkey : .reg Machine.rsp.toNat ∈ (accesses c i).writes := hsp
  constructor
  · constructor <;> simp [Machine.Op.implied, hkey, hmem]
  · constructor <;> simp [Machine.Op.implied, hkey, hmem]

/-- A branch goes to a label. -/
def BranchesToLabel (i : Instr) : Prop :=
  i.op.isBranch = true → ∀ o, i.output = some o → ∃ l, o = .label l

theorem covered_division {x y : Option Machine.Operand} {code : List Inst}
    (hop : isDivision i.op = true) (hfloat : (opType i).isFloat = false) (hdiv : DividesInPlace i)
    (hfirst : optional c i.first = .ok x) (hx : (accesses c i).CoversRead x)
    (hy : (accesses c i).CoversRead y) (h : divide i.op x y = .ok code) :
    Covered (accesses c i) code := by
  rcases hdiv hop hfloat with ⟨offset, t, hstack⟩ | ⟨w, hout⟩
  · -- A dividend in the frame is a memory operand, which is rejected.
    rw [hstack] at hfirst
    obtain ⟨m, hm, hsome⟩ := bind_eq_ok.mp hfirst
    cases hsome
    simp only [operand, frameSlot] at hm
    split at hm
    · cases hm
      cases h
    · cases hm
  · have hdefs : i.defs = [.reg (gpr Machine.rax w), .reg (gpr Machine.rdx w)] := by
      unfold Instr.defs
      rw [hout, if_neg]
      cases hi : i.op <;> simp_all [isDivision, Opcode.isBranch, Opcode.isCondBranch]
    have hkey : ∀ r : Reg, .reg r ∈ i.defs → .reg r.key ∈ (accesses c i).keys true := by
      intro r hr
      have hrec := @Schedule.records_of_def Target.roles c.locations i _ hr
      exact Schedule.key_of_records hrec (.inl rfl)
    exact covered_divide hx hy (hkey (gpr Machine.rax w) (by simp [hdefs]))
      (hkey (gpr Machine.rdx w) (by simp [hdefs])) h

theorem covered_intArithmetic {d x y : Option Machine.Operand} {signed : Bool} {code : List Inst}
    (hfloat : (opType i).isFloat = false) (hdiv : DividesInPlace i)
    (hfirst : optional c i.first = .ok x) (hd : (accesses c i).CoversWrite d)
    (hx : (accesses c i).CoversRead x) (hy : (accesses c i).CoversRead y)
    (h : intArithmetic i d x y signed = .ok code) :
    Covered (accesses c i) code := by
  cases intArithmetic_code h with
  | product _ made => exact covered_mul hd hx hy made
  | division op made =>
    refine covered_division ?_ hfloat hdiv hfirst hx hy made
    rcases op with op | op | op | op <;> rw [op] <;> rfl
  | unary op made =>
    refine covered_unary ?_ hd hx made
    rcases op with ⟨-, rfl⟩ | ⟨-, rfl⟩ <;> rfl
  | shift _ found hcount made =>
    exact covered_binary (implied_of_int found) hd hx (coversRead_shiftCount hy hcount) made
  | twoAddress _ found made => exact covered_binary (implied_of_int found) hd hx (hy.resize _) made

theorem covered_compute {d x y : Option Machine.Operand} {code : List Inst}
    (hop : isSelectedByOperands i.op = true) (hbranch : BranchesToLabel i)
    (hdiv : DividesInPlace i) (hd : outputOperand c i.output = .ok d)
    (hfirst : optional c i.first = .ok x) (hsecond : optional c i.second = .ok y)
    (h : compute c i d x y = .ok code) :
    Covered (accesses c i) code := by
  have hread := fun {p} => @mem_readOperands_of_source i p hop
  have hx : i.op ≠ .lea → (accesses c i).CoversRead x := by
    intro hlea
    exact coversRead_of_optional hfirst fun p hp => hread hlea (by simp [hp])
  have hy : i.op ≠ .lea → (accesses c i).CoversRead y := by
    intro hlea
    exact coversRead_of_optional hsecond fun p hp => hread hlea (by simp [hp])
  have hz : i.op ≠ .lea → ∀ z, required c i.addend = .ok z →
      (accesses c i).CoversRead (some z) := by
    intro hlea z hz
    cases hadd : i.addend with
    | none =>
      rw [hadd] at hz
      cases hz
    | some o =>
      rw [hadd] at hz
      refine coversRead_of_source hz fun p hp => hread hlea ?_
      simp [hadd, Instr.readsOption, hp]
  have hw : i.op.isBranch = false → (accesses c i).CoversWrite d :=
    fun hb => coversWrite_of_output hop hb hd
  have hjump : i.op.isBranch = true →
      (accesses c i).CoversRead d := by
    intro hb
    cases ho : i.output with
    | none =>
      rw [ho] at hd
      cases hd
      exact coversRead_none _
    | some o =>
      obtain ⟨l, rfl⟩ := hbranch hb o ho
      rw [ho] at hd
      cases hd
      exact covers_empty _
  have hclass : (i.op.isCompare || i.op.isFused || i.op.isArithmetic) = true →
      (accesses c i).CoversWrite d ∧ (accesses c i).CoversRead x ∧ (accesses c i).CoversRead y := by
    intro h
    have hop : i.op.isBranch = false ∧ i.op ≠ .lea := by
      cases hi : i.op <;> rw [hi] at h <;> first | exact ⟨rfl, by decide⟩ | cases h
    exact ⟨hw hop.1, hx hop.2, hy hop.2⟩
  cases compute_code h with
  | move op made => exact covered_move (hw (by rw [op]; rfl)) (hx (by rw [op]; decide)) made
  | lea op made =>
    refine covered_lea (hw (by rw [op]; rfl)) (fun p hp => Schedule.records_of_read ?_) made
    simp [Schedule.readOperands, op, hp]
  | clear op made => exact covered_clear (hw (by rw [op]; rfl)) made
  | push op made => exact covered_push (hx (by rw [op]; decide)) (covers_stack (.inl op)).1 made
  | pop op made => exact covered_pop (hw (by rw [op]; rfl)) (covers_stack (.inr op)).2 made
  | intToFloat op made =>
    exact covered_intToFloat (hw (by rw [op]; rfl)) (hx (by rw [op]; decide)) made
  | floatToInt op made =>
    exact covered_floatToInt (hw (by rw [op]; rfl)) (hx (by rw [op]; decide)) made
  | floatToFloat op made =>
    rcases op with op | op
    all_goals exact covered_floatToFloat (hw (by rw [op]; rfl)) (hx (by rw [op]; decide)) made
  | branch op hflags =>
    have hlea : i.op ≠ .lea := by
      rintro hl
      simp [hl, Opcode.isCondBranch] at op
    exact (covered_compare (hx hlea) (hy hlea) hflags).append (covered_singleton (covers_reading
      (covers_empty _) rfl (hjump (by simp [Opcode.isBranch, op])) (coversRead_none _)))
  | compare op hflags hresult =>
    obtain ⟨hw, hx, hy⟩ := hclass (by simp [op])
    exact (covered_compare hx hy hflags).append (covered_setCond hw hresult)
  | fused op made =>
    obtain ⟨hw, hx, hy⟩ := hclass (by simp [op])
    exact covered_fused hw hx hy (hz (by rintro hl; simp [hl, Opcode.isFused] at op)) made
  | floatNeg op _ made =>
    exact covered_floatNeg (hw (by rw [op]; rfl)) (hx (by rw [op]; decide)) made
  | float found _ made =>
    obtain ⟨hw, hx, hy⟩ := hclass (by simp [isArithmetic_of_floatOp found])
    exact covered_floatBinary (implied_of_float found) hw hx hy made
  | int op hint made =>
    obtain ⟨hw, hx, hy⟩ := hclass (by simp [op])
    exact covered_intArithmetic hint hdiv hfirst hw hx hy made

/-- The accesses of an instruction account for the code selected for it. -/
theorem covered_instr {code : List Inst}
    (hop : i.op ≠ .call ∧ i.op ≠ .rtCall ∧ i.op ≠ .ret ∧ i.op ≠ .fnEnd)
    (hbranch : BranchesToLabel i) (hdiv : DividesInPlace i) (h : instr c i = .ok code) :
    Covered (accesses c i) code := by
  obtain ⟨hcall, hrt, hret, hend⟩ := hop
  cases instr_code h with
  | nothing => exact covered_nil _
  | label => exact covered_singleton (covers_empty _)
  | leave op => exact absurd op (not_or.mpr ⟨hret, hend⟩)
  | call op => exact absurd op (not_or.mpr ⟨hcall, hrt⟩)
  | jump op target =>
    cases ho : i.output with
    | none =>
      rw [ho] at target
      cases target
    | some o =>
      obtain ⟨l, rfl⟩ := hbranch (by rw [op]; rfl) o ho
      rw [ho] at target
      cases target
      exact covered_singleton
        (covers_reading (covers_empty _) rfl (covers_empty _) (coversRead_none _))
  | compute op hd hx hy made => exact covered_compute op hbranch hdiv hd hx hy made

/-- A conditional branch is a comparison and a jump. -/
theorem compute_condBranch {d x y : Option Machine.Operand} {code : List Inst}
    (hop : i.op.isCondBranch = true) (h : compute c i d x y = .ok code) :
    ∃ flags, compare x y (opType i).isFloat = .ok flags ∧
      code = flags ++ [.op .jcc (condOf i.op (opType i).isFloat) d none none] := by
  have hclass : i.op.isCompare = false ∧ i.op.isFused = false ∧ i.op.isArithmetic = false := by
    cases hi : i.op <;> rw [hi] at hop <;> first | exact ⟨rfl, rfl, rfl⟩ | cases hop
  obtain ⟨hcompare, hfused, harith⟩ := hclass
  cases compute_code h with
  | branch _ hflags => exact ⟨_, hflags, rfl⟩
  | compare op => cases hcompare.symm.trans op
  | fused op => cases hfused.symm.trans op
  | int op => cases harith.symm.trans op
  | float found => cases harith.symm.trans (isArithmetic_of_floatOp found)
  | floatToFloat op => rcases op with op | op <;> rw [op] at hop <;> cases hop
  | move op | lea op | clear op | push op | pop op | intToFloat op | floatToInt op | floatNeg op =>
    rw [op] at hop
    cases hop

/-- What the code of an instruction writes is recorded, the scratch register and the stack pointer
apart. -/
theorem recorded_of_written {code : List Inst} {m : Inst} {id : Machine.RegId}
    (hexit : i.op ≠ .ret ∧ i.op ≠ .fnEnd) (hdiv : DividesInPlace i) (h : instr c i = .ok code)
    (hm : m ∈ code) (hw : id.toNat ∈ m.footprint.writes) (hscratch : id ≠ Machine.r11)
    (hstack : id ≠ Machine.rsp) : .reg id.toNat ∈ (accesses c i).writes := by
  have hcovered : Covered (accesses c i) code → .reg id.toNat ∈ (accesses c i).writes :=
    fun hc => (hc m hm).writes _ hw (by rwa [mem_scratchKeys_iff])
  have hne : id.toNat ≠ Machine.rsp.toNat := fun heq => hstack (UInt8.toNat_inj.mp heq)
  have hcall : call i = .ok code → .reg id.toNat ∈ (accesses c i).writes := by
    intro h
    have hwrites : m.footprint.writes = [Machine.rsp.toNat] := by
      cases call_code h with
      | direct | indirect =>
        cases List.mem_singleton.mp hm
        exact Machine.writes_op ..
    rw [hwrites] at hw
    exact absurd (List.mem_singleton.mp hw) hne
  cases hbranch : i.op.isBranch with
  | false =>
    by_cases hop : i.op = .call ∨ i.op = .rtCall
    · refine hcall ?_
      rcases hop with hop | hop <;> simpa [instr, hop] using h
    · push Not at hop
      refine hcovered (covered_instr ⟨hop.1, hop.2, hexit⟩ (fun hb => ?_) hdiv h)
      rw [hbranch] at hb
      cases hb
  | true =>
    -- A jump writes no register, wherever it goes.
    by_cases hbal : i.op = .bal
    · simp only [instr, hbal] at h
      obtain ⟨d, -, h⟩ := bind_eq_ok.mp h
      cases h
      cases List.mem_singleton.mp hm
      rw [Inst.unary, Machine.writes_op] at hw
      cases hw
    have hcond : i.op.isCondBranch = true := by
      simpa [Opcode.isBranch, hbal] using hbranch
    have hsel : isSelectedByOperands i.op = true := by
      cases hi : i.op <;> rw [hi] at hcond <;> first | rfl | cases hcond
    obtain ⟨d, x, y, -, hx, hy, h⟩ := instr_eq_compute hsel h
    obtain ⟨flags, hflags, rfl⟩ := compute_condBranch hcond h
    have hlea : i.op ≠ .lea := by
      intro hl
      rw [hl] at hcond
      cases hcond
    have hread := fun {p} => @mem_readOperands_of_source i p hsel hlea
    have hcompare : Covered (accesses c i) flags := covered_compare
      (coversRead_of_optional hx fun p hp => hread (by simp [hp]))
      (coversRead_of_optional hy fun p hp => hread (by simp [hp])) hflags
    rcases List.mem_append.mp hm with hm | hm
    · exact (hcompare m hm).writes _ hw (by rwa [mem_scratchKeys_iff])
    · cases List.mem_singleton.mp hm
      rw [Machine.writes_op] at hw
      cases hw

end Instructions

/-- The accesses the scheduler sees of a lowered instruction cover the code selected for it: every
register it reads or writes and its use of memory. -/
theorem accesses_cover_selected_code {t : Target} {c c' : Closure} {b : Block} {i : Instr}
    {code : List Inst} (hlower : t.lower c = .ok c') (hb : b ∈ c'.blocks) (hi : i ∈ b.ops)
    (hop : i.op ≠ .call ∧ i.op ≠ .rtCall ∧ i.op ≠ .ret ∧ i.op ≠ .fnEnd)
    (hbranch : BranchesToLabel i) (h : instr c' i = .ok code) :
    (Schedule.access Target.roles c'.locations i).Covers (Machine.footprint code) := by
  have hdiv : DividesInPlace i := dividesInPlace_of_lower hlower b hb i hi
  exact Schedule.Access.covers_footprint.mpr (covered_instr hop hbranch hdiv h)

/-- A function of one block without variables. -/
def straightLine (ops : List Instr) (frame : Int64) : Closure :=
  ⟨"f", "f", true, .void, [], [⟨"entry", ops, [], [], [], []⟩], [], [], [], frame, []⟩

def linux : Target := .amd64Linux ⟨false, false, []⟩

/-- The division in the lowered form of `sdiv rdi, rsi -> rbx`. -/
def loweredDivision : Instr :=
  .make .sdiv (some (.reg regRax)) (some (.reg regR10)) (some (.list [.reg regRax, .reg regRdx]))

def dividing : Closure :=
  straightLine [.make .sdiv (some (.reg (gpr Machine.rdi 8))) (some (.reg (gpr Machine.rsi 8)))
    (some (.reg (gpr Machine.rbx 8)))] 0

def loweredDividing : Closure :=
  straightLine [.make .move (some (.reg (gpr Machine.rsi 8))) none (some (.reg regR10)),
    .make .move (some (.reg (gpr Machine.rdi 8))) none (some (.reg regRax)), loweredDivision,
    .make .move (some (.reg regRax)) none (some (.reg (gpr Machine.rbx 8)))] 16

/-- The division that signed integers end in reads and writes rax and rdx, which it does not all
name. -/
theorem accesses_cover_selected_division :
    linux.lower dividing = .ok loweredDividing ∧
      instr loweredDividing loweredDivision =
        .ok [inst .cqo (some (.reg ⟨Machine.rax, 8⟩)) none,
          inst .idiv (some (.reg ⟨Machine.r10, 8⟩)) none] ∧
      (Schedule.access Target.roles loweredDividing.locations loweredDivision).Covers
        (Machine.footprint [inst .cqo (some (.reg ⟨Machine.rax, 8⟩)) none,
          inst .idiv (some (.reg ⟨Machine.r10, 8⟩)) none]) := by
  have hlower : linux.lower dividing = .ok loweredDividing := rfl
  refine ⟨hlower, rfl, ?_⟩
  refine accesses_cover_selected_code hlower List.mem_cons_self ?_ (by decide) ?_ rfl
  · exact List.mem_cons_of_mem _ (List.mem_cons_of_mem _ List.mem_cons_self)
  · intro h
    cases h

def jump : Instr := .make .bal none none (some (.reg regRax))

def jumping : Closure :=
  straightLine [jump, .make .move (some (.imm (.int .w64 1))) none (some (.reg regRax))] 0

/-- A jump through a register reads the register, of which its accesses say nothing. -/
theorem accesses_miss_jump_register :
    linux.lower jumping = .ok jumping ∧ (∃ b ∈ jumping.blocks, jump ∈ b.ops) ∧
      (jump.op ≠ .call ∧ jump.op ≠ .rtCall ∧ jump.op ≠ .ret ∧ jump.op ≠ .fnEnd) ∧
      instr jumping jump = .ok [.unary .jmp (.reg ⟨Machine.rax, 8⟩)] ∧
      ¬ (Schedule.access Target.roles jumping.locations jump).Covers
        (Machine.footprint [.unary .jmp (.reg ⟨Machine.rax, 8⟩)]) := by
  refine ⟨rfl, ⟨_, List.mem_cons_self, List.mem_cons_self⟩, by decide, rfl, fun h => ?_⟩
  have hread := h.reads Machine.rax.toNat (by decide) (by decide)
  revert hread
  decide

end Backend.Selection
