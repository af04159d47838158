-- Moves of constants into variables. In a general purpose register or a frame slot a variable gets
-- the constant cut or extended from its own width; in an SSE register it gets as many bytes as it
-- has itself, whatever they are.
import Backend.Proofs.Selection.FloatComparison

namespace Backend.Selection

open Backend.Machine (Inst Linkage State Place Assigns convert runTo runTo_cons runTo_of_run Flags)

/-! ## Constants and where they go -/

/-- An immediate other than zero or memory. -/
def IsConstant : Machine.Operand → Prop
  | .imm v => v ≠ 0
  | .mem m => IsWidth m.width
  | _ => False

/-- What can hold a value of the width: a register or a slot. An SSE register takes four or eight
bytes. -/
def Holder (w : UInt8) : Machine.Operand → Prop
  | .reg r => r.width = w
  | .xmm x => x.width = w ∧ (w = 4 ∨ w = 8)
  | .mem m => m.width = w ∧ addressUses Machine.r11 m.addr = false
  | _ => False

/-- The bits of a constant at a width: as many bytes as it takes from the start of the constant, or
those of the constant cut or extended. -/
def constantBits (l : Linkage) (s : State) (raw signed : Bool) (a : Machine.Operand) (w : UInt8) :
    BitVec (8 * w.toNat) :=
  if raw then a.value l s w.toNat else convert signed w.toNat (a.value l s (sourceWidth a))

section Moves

variable (l : Linkage) {w : UInt8} {d a : Machine.Operand}

/-- A constant is moved into an SSE register, an immediate by way of the scratch register. -/
theorem runTo_constant_xmm {x : Machine.Xmm} (hx : x.width = 4 ∨ x.width = 8) (ha : IsConstant a)
    (signed : Bool) :
    ∃ code, move (some (.xmm x)) (some a) signed = .ok code ∧ ∀ s f, ∃ s' f',
      runTo l code ⟨s, f⟩ = some (⟨s', f'⟩, none) ∧
      Assigns (.xmm x.id) (a.value l s x.width.toNat) [Machine.r11] s s' := by
  cases a with
  | imm v =>
    have hne : (v == 0) = false := by simpa using (show v ≠ 0 from ha)
    refine ⟨[two .mov (.reg (r11 8)) (.imm v), two .movq (.xmm x) (.reg (r11 x.width))], ?_,
      fun s f => ?_⟩
    · simp only [move, sameOperand, Bool.false_eq_true, if_false, moveToXmm, hne]
    · let word : BitVec 64 := v.toBitVec.setWidth 64
      obtain ⟨f1, h1⟩ := Machine.runTo_cons_of_exec (f := f) (exec_mov_reg l s (r11 8) (.imm v) rfl)
        [two .movq (.xmm x) (.reg (r11 x.width))]
      have hload : Assigns (.reg Machine.r11) (n := 8) word [] s
          (s.setReg Machine.r11 (n := 8) word) :=
        Machine.assigns_setReg s Machine.r11 _ (by decide) []
      have hscratch : (s.setReg Machine.r11 (n := 8) word).regs Machine.r11 = word := by
        have hvalue := hload.value
        simp only [State.get] at hvalue
        rwa [BitVec.setWidth_eq] at hvalue
      obtain ⟨s', hrun, h⟩ := runTo_movq (l := l) (g := f1) hx hscratch
      refine ⟨s', f1, h1.trans hrun, ?_⟩
      have hcut : word.setWidth (8 * x.width.toNat) = v.toBitVec.setWidth (8 * x.width.toNat) := by
        simp only [word, BitVec.setWidth_eq]
      rw [hcut] at h
      exact hload.after_scratch h (by simp)
  | mem m =>
    refine ⟨[two .movs (.xmm x) (.mem (m.sized x.width))], rfl, fun s f => ?_⟩
    obtain ⟨hload, h⟩ := next_load (l := l) (s := s) (f := f) (m := m) x.id hx
    refine ⟨_, f, ?_, h.weaken⟩
    rw [runTo_cons (by rintro c t ⟨⟩), hload]
    rfl
  | _ => exact ha.elim

theorem IsConstant.int (ha : IsConstant a) : ∃ ws, IntOperand ws a := by
  cases a with
  | imm v => exact ⟨8, trivial⟩
  | mem m => exact ⟨m.width, rfl⟩
  | _ => exact ha.elim

/-- A constant is moved into whatever holds a variable, and the variable gets its bits. -/
theorem runTo_constant (hw : IsWidth w) (hd : Holder w d) (ha : IsConstant a) (signed : Bool) :
    ∃ code, move (some d) (some a) signed = .ok code ∧ ∀ s f, ∃ s' f' p, d.place? l s = some p ∧
      runTo l code ⟨s, f⟩ = some (⟨s', f'⟩, none) ∧
      Assigns p (constantBits l s (isXmm (some d)) signed a w) [Machine.r11] s s' := by
  obtain ⟨ws, hint⟩ := ha.int
  cases d with
  | xmm x =>
    obtain ⟨rfl, hx⟩ := hd
    obtain ⟨code, hcode, hruns⟩ := runTo_constant_xmm l hx ha signed
    refine ⟨code, hcode, fun s f => ?_⟩
    obtain ⟨s', f', hrun, h⟩ := hruns s f
    exact ⟨s', f', _, rfl, hrun, h⟩
  | reg r =>
    obtain ⟨code, hcode⟩ := exists_move_reg (d := r) signed hint
    refine ⟨code, hcode, fun s f => ?_⟩
    obtain rfl : r.width = w := hd
    obtain ⟨s', hrun, h⟩ := run_move_reg l s hw hint hcode
    obtain ⟨f', hf⟩ := runTo_of_run (f := f) hrun []
    rw [List.append_nil] at hf
    exact ⟨s', f', _, rfl, hf, h.weaken⟩
  | mem m =>
    obtain ⟨code, hcode⟩ := exists_move_mem (d := m) signed hint
    refine ⟨code, hcode, fun s f => ?_⟩
    obtain ⟨p, s', hp, hrun, h⟩ := run_move l s hw (d := .mem m) hd.1 hd.2 hint hcode
    obtain ⟨f', hf⟩ := runTo_of_run (f := f) hrun []
    rw [List.append_nil] at hf
    exact ⟨s', f', p, hp, hf, h⟩
  | imm v => exact hd.elim
  | target t => exact hd.elim

end Moves

end Backend.Selection
