-- Every encoding states the place of its symbolic displacement rightly, whatever the operands.
import Backend.Proofs.Machine.Decoding

namespace Backend.Machine

/-- If there is an encoding, its symbolic displacement is a zero field where it says. -/
def PlacesFixup (x : Except EncodeError Encoding) : Prop := ∀ e, x = .ok e → ∃ s, e.Placed s

namespace PlacesFixup

theorem error (cause : EncodeError) : PlacesFixup (.error cause) := by
  intro e h
  simp at h

theorem plain (bytes : List UInt8) : PlacesFixup (.ok (.plain bytes)) := by
  intro e h
  obtain rfl := Except.ok.inj h
  exact ⟨none, rfl, by simp [Encoding.plain], by simp [Encoding.plain]⟩

theorem form (f : ModrmForm) : PlacesFixup f.encode := fun _ h => ⟨_, ModrmForm.placed h⟩

theorem vex (f : VexForm) : PlacesFixup f.encode := fun _ h => ⟨_, VexForm.placed h⟩

theorem bind {α : Type} (x : Except EncodeError α) {f : α → Except EncodeError Encoding}
    (h : ∀ a, PlacesFixup (f a)) : PlacesFixup (x >>= f) := by
  intro e he
  obtain ⟨a, -, he⟩ := bind_eq_ok.mp he
  exact h a e he

theorem ite {c : Prop} [Decidable c] {x y : Except EncodeError Encoding} (hx : PlacesFixup x)
    (hy : PlacesFixup y) : PlacesFixup (if c then x else y) := by
  split
  · exact hx
  · exact hy

theorem movImmediate (r : Reg) (value : Int64) : PlacesFixup (encodeMovImmediate r value) := by
  unfold encodeMovImmediate
  refine .ite (.form _) ?_
  simp only
  split
  · exact .plain _
  · exact .ite (.error _) (.plain _)
  · exact .bind _ fun _ => .plain _
  · exact .bind _ fun _ => .plain _
  · exact .error _

theorem mov (dst src : Option Operand) : PlacesFixup (encodeMov dst src) := by
  unfold encodeMov
  split
  · exact .bind _ fun _ => .form _
  · exact .form _
  · exact movImmediate _ _
  · exact .form _
  · exact .bind _ fun _ => .form _
  · exact .error _

theorem extend (signed : Bool) (dst : Reg) (src : Option Operand) :
    PlacesFixup (encodeExtend signed dst src) := by
  unfold encodeExtend
  refine .bind _ fun _ => .ite (.bind _ fun _ => ?_) ?_ <;>
    exact .ite (.form _) (.ite (mov _ _) (.ite (.form _) (.form _)))

theorem alu (op : Op) (dst src : Option Operand) : PlacesFixup (encodeAlu op dst src) := by
  unfold encodeAlu
  refine .bind _ fun _ => ?_
  split
  · exact .bind _ fun _ => .form _
  · split
    · exact .form _
    · exact .error _
  · exact .ite (.bind _ fun _ => .form _) (.ite (.form _) (.bind _ fun _ => .form _))
  · exact .error _

theorem test (dst src : Option Operand) : PlacesFixup (encodeTest dst src) := by
  unfold encodeTest
  refine .bind _ fun _ => ?_
  split
  · exact .form _
  · exact .bind _ fun _ => .form _
  · exact .error _

theorem imul (dst : Reg) (src factor : Option Operand) :
    PlacesFixup (encodeImul dst src factor) := by
  unfold encodeImul
  refine .ite (.error _) ?_
  split
  · exact .form _
  · exact .ite (.form _) (.bind _ fun _ => .form _)
  · exact .error _

theorem unary (op : Op) (dst : Option Operand) : PlacesFixup (encodeUnary op dst) :=
  .bind _ fun _ => .form _

theorem shift (op : Op) (dst count : Option Operand) : PlacesFixup (encodeShift op dst count) := by
  unfold encodeShift
  refine .bind _ fun _ => ?_
  split
  · exact .ite (.bind _ fun _ => .form _) (.form _)
  · exact .ite (.bind _ fun _ => .form _) (.form _)
  · exact .error _

theorem pushPop (push : Bool) (o : Option Operand) : PlacesFixup (encodePushPop push o) := by
  unfold encodePushPop
  split
  · exact .bind _ fun _ => .plain _
  · exact .form _
  · exact .form _
  · exact .ite (.plain _) (.bind _ fun _ => .plain _)
  · exact .error _

theorem movs (dst src : Option Operand) : PlacesFixup (encodeMovs dst src) := by
  unfold encodeMovs
  split
  · split
    · exact .form _
    · exact .error _
  · exact .form _
  · exact .error _

theorem movq (dst src : Option Operand) : PlacesFixup (encodeMovq dst src) := by
  unfold encodeMovq
  split
  · exact .bind _ fun _ => .form _
  · exact .bind _ fun _ => .form _
  · exact .error _

theorem scalar (op : Op) (dst src : Option Operand) : PlacesFixup (encodeScalar op dst src) := by
  unfold encodeScalar
  split
  · exact movs _ _
  · exact movq _ _
  · exact .ite (.error _) (.bind _ fun _ => .form _)
  · exact .error _
  · exact .form _
  · exact .form _
  · exact .bind _ fun _ => .form _
  · exact .bind _ fun _ => .ite (.bind _ fun _ => .form _) (.form _)
  · exact .form _
  · exact .error _

theorem fma (op : Op) (dst src src2 : Option Operand) :
    PlacesFixup (encodeFma op dst src src2) := by
  unfold encodeFma
  split
  · exact .vex _
  · exact .error _
  · exact .error _

theorem indirect (op : Op) (dst : Option Operand) : PlacesFixup (encodeIndirect op dst) := by
  unfold encodeIndirect
  simp only
  split
  · exact .bind _ fun _ => .form _
  · exact .form _
  · exact .error _

/-- The symbolic displacement of every instruction is where its encoding says. -/
theorem inst (i : Inst) : PlacesFixup i.encode := by
  cases i with
  | label name kind binding => exact .plain _
  | op f cond dst src src2 =>
    cases f with
    | mov => exact mov _ _
    | movzx | movsx =>
      simp only [Inst.encode]
      split
      · exact extend _ _ _
      · exact .error _
    | lea =>
      simp only [Inst.encode]
      split
      · exact .ite (.error _) (.form _)
      · exact .error _
    | add | or | and | sub | xor | cmp => exact alu _ _ _
    | test => exact test _ _
    | imul =>
      simp only [Inst.encode]
      split
      · exact imul _ _ _
      · exact .error _
    | neg | not | div | idiv => exact unary _ _
    | cqo =>
      simp only [Inst.encode]
      split
      · split
        · exact .plain _
        · exact .plain _
        · exact .plain _
        · exact .error _
      · exact .plain _
    | shl | shr | sar => exact shift _ _ _
    | btc =>
      refine .bind _ fun _ => ?_
      split
      · exact .form _
      · exact .error _
    | setcc => exact .bind _ fun _ => .ite (.bind _ fun _ => .form _) (.form _)
    | jmp | call => exact indirect _ _
    | jcc => exact .error _
    | ret => exact .plain _
    | push => exact pushPop _ _
    | pop => exact pushPop _ _
    | movs | adds | subs | muls | divs | ucomis | xorps | cvtsi2s | cvtts2si | cvts2s | movq =>
      simp only [Inst.encode]
      exact scalar _ _ _
    | vfmadd231 | vfmsub231 | vfnmadd231 => exact fma _ _ _ _
    | reserved code => exact .error _

end PlacesFixup

end Backend.Machine
