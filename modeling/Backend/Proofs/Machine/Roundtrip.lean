-- Every instruction is recovered from its machine code: the decoder gives back the operation, the
-- operands and the immediate, and a symbolic displacement is a zero field where the encoding says.
import Backend.Proofs.Machine.Decoding.Scalar

namespace Backend.Machine

open Decoder

/-! ## Well-formed instructions -/

/-- There is one operand, with the property. -/
def TakesOne (P : Operand → Prop) : Option Operand → Option Operand → Option Operand → Prop
  | some d, none, none => P d
  | _, _, _ => False

/-- There are two operands, with the property. -/
def TakesTwo (P : Operand → Operand → Prop) :
    Option Operand → Option Operand → Option Operand → Prop
  | some d, some s, none => P d s
  | _, _, _ => False

/-- There are three operands, with the property. -/
def TakesThree (P : Operand → Operand → Operand → Prop) :
    Option Operand → Option Operand → Option Operand → Prop
  | some d, some s, some t => P d s t
  | _, _, _ => False

/-- The operands are of the kinds and widths that the instruction takes. Labels and direct branches
are not instructions with an encoding of their own. -/
def Inst.Takes : Inst → Prop
  | .label _ _ _ => False
  | .op f cond dst src src2 =>
    match f with
    | .mov | .add | .or | .and | .sub | .xor | .cmp =>
      TakesTwo (fun d s => ∃ w, IsWidth w ∧ d.IsRm w ∧ (s.IsRm w ∨ s.IsImm)) dst src src2
    | .test => TakesTwo (fun d s => ∃ w, IsWidth w ∧ d.IsRm w ∧ (s.IsReg w ∨ s.IsImm)) dst src src2
    | .movzx | .movsx =>
      TakesTwo (fun d s => ∃ w k, IsWidth w ∧ IsWidth k ∧ d.IsReg w ∧ s.IsRm k) dst src src2
    | .lea => TakesTwo (fun d s => ∃ w k, IsWidth w ∧ d.IsReg w ∧ s.IsMem k) dst src src2
    | .imul =>
      match dst, src with
      | some d, some s => ∃ w, IsWidth w ∧ d.IsReg w ∧ s.IsRm w ∧ ∀ o ∈ src2, o.IsImm
      | _, _ => False
    | .neg | .not | .div | .idiv => TakesOne (fun d => ∃ w, IsWidth w ∧ d.IsRm w) dst src src2
    | .cqo => src = none ∧ src2 = none ∧ ∀ o ∈ dst, ∃ w, IsWidth w ∧ o = .reg ⟨rax, w⟩
    | .shl | .shr | .sar =>
      TakesTwo (fun d s => ∃ w, IsWidth w ∧ d.IsRm w ∧ (s.IsReg 1 ∨ s.IsImm)) dst src src2
    | .btc =>
      TakesTwo (fun d s => ∃ w i, IsWidth w ∧ w ≠ 1 ∧ d.IsRm w ∧ s = .imm i ∧ 0 ≤ i.toInt ∧
        i.toInt < 8 * w.toNat) dst src src2
    | .setcc => TakesOne (fun d => d.IsRm 1 ∧ cond.code.toNat < 16) dst src src2
    | .jmp | .call | .pop => TakesOne (fun d => d.IsRm 8) dst src src2
    | .push => TakesOne (fun d => d.IsRm 8 ∨ d.IsImm) dst src src2
    | .ret => dst = none ∧ src = none ∧ src2 = none
    | .movs => TakesTwo (fun d s => ∃ w, IsScalar w ∧ d.IsXrm w ∧ s.IsXrm w) dst src src2
    | .adds | .subs | .muls | .divs | .ucomis =>
      TakesTwo (fun d s => ∃ w, IsScalar w ∧ d.IsXmm w ∧ s.IsXrm w) dst src src2
    | .xorps =>
      TakesTwo (fun d s => ∃ w, IsScalar w ∧ d.IsXmm w ∧ (s.IsXmm w ∨ s.IsMem 16)) dst src src2
    | .cvtsi2s =>
      TakesTwo (fun d s => ∃ w k, IsScalar w ∧ IsWidth k ∧ d.IsXmm w ∧ s.IsRm k) dst src src2
    | .cvtts2si =>
      TakesTwo (fun d s => ∃ w k, IsWidth w ∧ IsScalar k ∧ d.IsReg w ∧ s.IsXrm k) dst src src2
    | .cvts2s =>
      TakesTwo (fun d s => ∃ w k, IsScalar w ∧ IsScalar k ∧ w ≠ k ∧ d.IsXmm w ∧ s.IsXrm k)
        dst src src2
    | .movq =>
      TakesTwo (fun d s => ∃ w k, IsScalar w ∧ IsScalar k ∧
        (d.IsXmm w ∧ s.IsRm k ∨ d.IsRm k ∧ s.IsXmm w)) dst src src2
    | .vfmadd231 | .vfmsub231 | .vfnmadd231 =>
      TakesThree (fun d s t => ∃ w, IsScalar w ∧ d.IsXmm w ∧ s.IsXmm w ∧ t.IsXrm w) dst src src2
    | .jcc | .reserved _ => False

theorem TakesOne.eq {P : Operand → Prop} {dst src src2 : Option Operand}
    (h : TakesOne P dst src src2) : ∃ d, dst = some d ∧ src = none ∧ src2 = none ∧ P d := by
  unfold TakesOne at h
  split at h
  · exact ⟨_, rfl, rfl, rfl, h⟩
  · exact absurd h id

theorem TakesTwo.eq {P : Operand → Operand → Prop} {dst src src2 : Option Operand}
    (h : TakesTwo P dst src src2) :
    ∃ d s, dst = some d ∧ src = some s ∧ src2 = none ∧ P d s := by
  unfold TakesTwo at h
  split at h
  · exact ⟨_, _, rfl, rfl, rfl, h⟩
  · exact absurd h id

theorem TakesThree.eq {P : Operand → Operand → Operand → Prop} {dst src src2 : Option Operand}
    (h : TakesThree P dst src src2) :
    ∃ d s t, dst = some d ∧ src = some s ∧ src2 = some t ∧ P d s t := by
  unfold TakesThree at h
  split at h
  · exact ⟨_, _, _, rfl, rfl, rfl, h⟩
  · exact absurd h id

/-! ## What the bytes say -/

section

variable (f : Op) (cond : Cond) (dst src src2 : Option Operand)

/-- The instruction that is encoded: zero extension from four bytes is a move. -/
def encodedOp : Op := if f = .movzx ∧ Inst.gprWidth? src = some 4 then .mov else f

/-- The operands with the widths that the encoding has. It differs from the operands as given where
their width does not matter: a move that extends clears the upper half, the memory of an address is
not accessed, the exclusive or is of whole registers, and a transfer is as wide as its general
purpose operand. -/
def encodedOperands : List Operand :=
  let all := dst.toList ++ src.toList ++ src2.toList
  match f with
  | .movzx =>
    if Inst.gprWidth? src = some 4 then (dst.map (Operand.sized 4)).toList ++ src.toList else all
  | .lea => dst.toList ++ (src.map (Operand.sized 0)).toList
  | .cqo => [dst.getD (.reg ⟨rax, 8⟩)]
  | .xorps => all.map (Operand.sized 16)
  | .movq => all.map (Operand.sized (((Inst.gprWidth? src).or (Inst.gprWidth? dst)).getD 8))
  | _ => all

/-- The instruction as it is decoded when a symbolic displacement holds `d`. Immediates count modulo
the range of the destination. -/
def encodedInstr (d : Int) : Instr :=
  ⟨encodedOp f src, if f = .setcc then cond else ⟨0⟩,
    (encodedOperands f dst src src2).map (Operand.view d ((Inst.gprWidth? dst).getD 8))⟩

/-- The symbol that an operand refers to. -/
def operandSymbol? : Option (String × Bool) :=
  (dst.toList ++ src.toList ++ src2.toList).findSome? Operand.symbol?

end

theorem gprWidth?_isRm {w : UInt8} {o : Operand} (h : o.IsRm w) :
    Inst.gprWidth? (some o) = some w := by
  rcases h with h | h
  · obtain ⟨r, rfl, -, rfl⟩ := h.eq
    rfl
  · obtain ⟨m, rfl, -, rfl⟩ := h.eq
    rfl

theorem operandSymbol?_two (d s : Operand) :
    operandSymbol? (some d) (some s) none = d.symbol?.or s.symbol? := by
  simp only [operandSymbol?, Option.toList, List.cons_append, List.nil_append, List.append_nil,
    List.findSome?_cons, List.findSome?_nil]
  cases d.symbol? <;> cases s.symbol? <;> rfl

theorem operandSymbol?_one (d : Operand) : operandSymbol? (some d) none none = d.symbol? := by
  simp only [operandSymbol?, Option.toList, List.append_nil, List.findSome?_cons,
    List.findSome?_nil]
  cases d.symbol? <;> rfl

theorem operandSymbol?_three (d s t : Operand) :
    operandSymbol? (some d) (some s) (some t) = (d.symbol?.or s.symbol?).or t.symbol? := by
  simp only [operandSymbol?, Option.toList, List.cons_append, List.nil_append,
    List.findSome?_cons, List.findSome?_nil]
  cases d.symbol? <;> cases s.symbol? <;> cases t.symbol? <;> rfl

/-- Most instructions are encoded as they are given. -/
theorem encodedInstr_eq {f : Op} (hf : f ≠ .movzx ∧ f ≠ .lea ∧ f ≠ .cqo ∧ f ≠ .xorps ∧ f ≠ .movq)
    (cond : Cond) (dst src src2 : Option Operand) :
    encodedInstr f cond dst src src2 = fun d => ⟨f, if f = .setcc then cond else ⟨0⟩,
      (dst.toList ++ src.toList ++ src2.toList).map
        (Operand.view d ((Inst.gprWidth? dst).getD 8))⟩ := by
  obtain ⟨h1, h2, h3, h4, h5⟩ := hf
  funext d
  cases f <;> first | rfl | contradiction

theorem encodedInstr_movzx {k : UInt8} {s : Operand} (hs : s.IsRm k) (cond : Cond) (r : Reg) :
    encodedInstr .movzx cond (some (.reg r)) (some s) none = fun x =>
      if k = 4 ∧ (Op.movzx == .movsx) = false then
        ⟨.mov, ⟨0⟩, [.reg ⟨r.id, 4⟩, s.view x r.width]⟩
      else ⟨.movzx, ⟨0⟩, [.reg r, s.view x r.width]⟩ := by
  funext x
  simp only [encodedInstr, encodedOp, encodedOperands, gprWidth?_isRm hs, Option.some.injEq,
    true_and, show (Op.movzx == .movsx) = false from rfl, and_true]
  by_cases hfour : k = 4
  · simp only [hfour, if_true]
    rfl
  · simp only [hfour, if_false]
    rfl

/-- A transfer is as wide as its general purpose operand. -/
theorem movq_width {w k : UInt8} {d s : Operand}
    (ho : d.IsXmm w ∧ s.IsRm k ∨ d.IsRm k ∧ s.IsXmm w) :
    ((Inst.gprWidth? (some s)).or (Inst.gprWidth? (some d))).getD 8 = k := by
  rcases ho with ⟨-, hs⟩ | ⟨hd, hs⟩
  · rw [gprWidth?_isRm hs]
    rfl
  · obtain ⟨x, rfl, -⟩ := hs.eq
    rw [gprWidth?_isRm hd]
    rfl

/-- The machine code of every instruction is decoded to it, whatever a symbolic displacement
holds. -/
theorem decodesTo_encode {f : Op} {cond : Cond} {dst src src2 : Option Operand} {e : Encoding}
    (ht : (Inst.op f cond dst src src2).Takes)
    (h : (Inst.op f cond dst src src2).encode = .ok e) :
    e.DecodesTo (encodedInstr f cond dst src src2) (operandSymbol? dst src src2) := by
  cases f with
  | mov =>
    obtain ⟨d, s, rfl, rfl, rfl, w, hw, hd, hs⟩ := ht.eq
    rw [encodedInstr_eq (by decide), operandSymbol?_two, gprWidth?_isRm hd]
    exact decodesTo_mov hw hd hs h
  | add | or | and | sub | xor | cmp =>
    obtain ⟨d, s, rfl, rfl, rfl, w, hw, hd, hs⟩ := ht.eq
    rw [encodedInstr_eq (by decide), operandSymbol?_two, gprWidth?_isRm hd]
    exact decodesTo_alu (by simp [Op.IsAlu]) hw hd hs h
  | test =>
    obtain ⟨d, s, rfl, rfl, rfl, w, hw, hd, hs⟩ := ht.eq
    rw [encodedInstr_eq (by decide), operandSymbol?_two, gprWidth?_isRm hd]
    exact decodesTo_test hw hd hs h
  | movsx =>
    obtain ⟨d, s, rfl, rfl, rfl, w, k, hw, hk, hd, hs⟩ := ht.eq
    obtain ⟨r, rfl, hid, rfl⟩ := hd.eq
    have hdecodes := decodesTo_extend hw hid hk hs h
    have hsigned : ¬(k = 4 ∧ true = false) := by simp
    rw [encodedInstr_eq (by decide), operandSymbol?_two]
    simp only [beq_self_eq_true, hsigned, if_false, if_true] at hdecodes
    exact hdecodes
  | movzx =>
    obtain ⟨d, s, rfl, rfl, rfl, w, k, hw, hk, hd, hs⟩ := ht.eq
    obtain ⟨r, rfl, hid, rfl⟩ := hd.eq
    have hdecodes := decodesTo_extend hw hid hk hs h
    rw [encodedInstr_movzx hs, operandSymbol?_two]
    exact hdecodes
  | lea =>
    obtain ⟨d, s, rfl, rfl, rfl, w, k, hw, hd, hs⟩ := ht.eq
    obtain ⟨r, rfl, hid, rfl⟩ := hd.eq
    obtain ⟨m, rfl, hm, -⟩ := hs.eq
    rw [operandSymbol?_two]
    simp only [Inst.encode] at h
    split at h
    · simp at h
    · rename_i hlarge
      exact decodesTo_lea hw hid hm h hlarge r.width
  | imul =>
    cases dst with
    | none => exact ht.elim
    | some d =>
    cases src with
    | none => exact ht.elim
    | some s =>
      obtain ⟨w, hw, hd, hs, hf⟩ := ht
      obtain ⟨r, rfl, hid, rfl⟩ := hd.eq
      have hdecodes := decodesTo_imul hw hid hs hf h
      rw [encodedInstr_eq (by decide)]
      cases src2 with
      | none =>
        rw [operandSymbol?_two]
        exact hdecodes
      | some o =>
        obtain ⟨value, rfl⟩ := (hf o rfl).eq
        rw [operandSymbol?_three, Operand.symbol?_reg, Operand.symbol?_imm, Option.none_or,
          Option.or_none]
        exact hdecodes
  | neg | not | div | idiv =>
    obtain ⟨d, rfl, rfl, rfl, w, hw, hd⟩ := ht.eq
    rw [encodedInstr_eq (by decide), operandSymbol?_one, gprWidth?_isRm hd]
    exact decodesTo_unary (by simp) hw hd h
  | cqo =>
    obtain ⟨rfl, rfl, hd⟩ := ht
    have hdecodes := decodesTo_cqo hd cond h
    cases dst with
    | none => exact hdecodes
    | some o =>
      obtain ⟨w, -, rfl⟩ := hd o rfl
      exact hdecodes
  | shl | shr | sar =>
    obtain ⟨d, s, rfl, rfl, rfl, w, hw, hd, hs⟩ := ht.eq
    rw [encodedInstr_eq (by decide), operandSymbol?_two, gprWidth?_isRm hd]
    exact decodesTo_shift (by simp) hw hd hs h
  | btc =>
    obtain ⟨d, s, rfl, rfl, rfl, w, i, hw, hne, hd, rfl, hlow, hhigh⟩ := ht.eq
    replace h := bind_gprWidth hd h
    have hsmall : i.toInt < 64 := by
      rcases hw with rfl | rfl | rfl | rfl <;> simp at hhigh <;> omega
    rw [encodedInstr_eq (by decide), operandSymbol?_two, gprWidth?_isRm hd, Operand.symbol?_imm,
      Option.or_none]
    exact decodesTo_btc hw hne hd ⟨hlow, hsmall⟩ h
  | setcc =>
    obtain ⟨d, rfl, rfl, rfl, hd, hcond⟩ := ht.eq
    replace h := bind_gprWidth hd h
    rw [encodedInstr_eq (by decide), operandSymbol?_one, gprWidth?_isRm hd]
    exact decodesTo_setcc hcond hd h
  | jmp | call =>
    obtain ⟨d, rfl, rfl, rfl, hd⟩ := ht.eq
    rw [encodedInstr_eq (by decide), operandSymbol?_one, gprWidth?_isRm hd]
    exact decodesTo_indirect (by simp) hd h
  | pop =>
    obtain ⟨d, rfl, rfl, rfl, hd⟩ := ht.eq
    rw [encodedInstr_eq (by decide), operandSymbol?_one, gprWidth?_isRm hd]
    exact decodesTo_pushPop (.inl hd) h
  | push =>
    obtain ⟨d, rfl, rfl, rfl, hd⟩ := ht.eq
    rw [encodedInstr_eq (by decide), operandSymbol?_one]
    rcases hd with hd | hd
    · rw [gprWidth?_isRm hd]
      exact decodesTo_pushPop (.inl hd) h
    · obtain ⟨value, rfl⟩ := hd.eq
      exact decodesTo_pushPop (.inr ⟨rfl, hd⟩) h
  | ret =>
    obtain ⟨rfl, rfl, rfl⟩ := ht
    obtain rfl := Except.ok.inj h
    exact ⟨fun _ _ => rfl, Encoding.plain_placed _⟩
  | movs =>
    obtain ⟨d, s, rfl, rfl, rfl, w, hw, hd, hs⟩ := ht.eq
    rw [encodedInstr_eq (by decide), operandSymbol?_two]
    exact decodesTo_movs hw hd hs h _
  | adds | subs | muls | divs =>
    obtain ⟨d, s, rfl, rfl, rfl, w, hw, hd, hs⟩ := ht.eq
    obtain ⟨x, rfl, hx, rfl⟩ := hd.eq
    rw [encodedInstr_eq (by decide), operandSymbol?_two]
    exact decodesTo_scalarAlu (by simp [Op.IsScalarAlu]) hx hw hs h _
  | ucomis =>
    obtain ⟨d, s, rfl, rfl, rfl, w, hw, hd, hs⟩ := ht.eq
    obtain ⟨x, rfl, hx, rfl⟩ := hd.eq
    rw [encodedInstr_eq (by decide), operandSymbol?_two]
    exact decodesTo_ucomis hx hw hs h _
  | xorps =>
    obtain ⟨d, s, rfl, rfl, rfl, w, hw, hd, hs⟩ := ht.eq
    obtain ⟨x, rfl, hx, rfl⟩ := hd.eq
    rw [operandSymbol?_two]
    exact decodesTo_xorps hx hs h _
  | cvtsi2s =>
    obtain ⟨d, s, rfl, rfl, rfl, w, k, hw, hk, hd, hs⟩ := ht.eq
    obtain ⟨x, rfl, hx, rfl⟩ := hd.eq
    rw [encodedInstr_eq (by decide), operandSymbol?_two]
    replace h := bind_gprWidth hs h
    rcases hk with rfl | rfl | rfl | rfl
    · simp [throw, throwThe, MonadExceptOf.throw, bind, Except.bind] at h
    · simp [throw, throwThe, MonadExceptOf.throw, bind, Except.bind] at h
    · exact decodesTo_cvtsi2s hx hw (.inl rfl) hs h _
    · exact decodesTo_cvtsi2s hx hw (.inr rfl) hs h _
  | cvtts2si =>
    obtain ⟨d, s, rfl, rfl, rfl, w, k, hw, hk, hd, hs⟩ := ht.eq
    obtain ⟨r, rfl, hr, rfl⟩ := hd.eq
    rw [encodedInstr_eq (by decide), operandSymbol?_two]
    simp only [Inst.encode, encodeScalar] at h
    split at h
    · simp at h
    · rename_i hlarge
      replace h := bind_xmmWidth hs h
      have hscalar : IsScalar r.width := by
        rcases hw with hw | hw | hw | hw
        · exact absurd (by rw [hw]; decide) hlarge
        · exact absurd (by rw [hw]; decide) hlarge
        · exact .inl hw
        · exact .inr hw
      exact decodesTo_cvtts2si hr hscalar hk hs h _
  | cvts2s =>
    obtain ⟨d, s, rfl, rfl, rfl, w, k, hw, hk, hne, hd, hs⟩ := ht.eq
    obtain ⟨x, rfl, hx, rfl⟩ := hd.eq
    rw [encodedInstr_eq (by decide), operandSymbol?_two]
    replace h := bind_xmmWidth hs h
    exact decodesTo_cvts2s hx hw hk hne hs h _
  | movq =>
    obtain ⟨d, s, rfl, rfl, rfl, w, k, hw, hk, ho⟩ := ht.eq
    rw [operandSymbol?_two]
    have hdecodes := decodesTo_movq hk ho h ((Inst.gprWidth? (some d)).getD 8)
    obtain rfl := movq_width ho
    exact hdecodes
  | vfmadd231 | vfmsub231 | vfnmadd231 =>
    obtain ⟨d, s, t, rfl, rfl, rfl, w, hw, hd, hs, hrm⟩ := ht.eq
    obtain ⟨x, rfl, hx, rfl⟩ := hd.eq
    obtain ⟨y, rfl, hy, hxy⟩ := hs.eq
    rw [encodedInstr_eq (by decide), operandSymbol?_three, Operand.symbol?_xmm,
      Operand.symbol?_xmm, Option.none_or, Option.none_or]
    exact decodesTo_fma (by simp [Op.IsFma]) hx hy hw hxy hrm h _
  | jcc | reserved code => exact absurd ht id

/-- A symbolic displacement that is not known yet is encoded as zero. -/
theorem Encoding.Placed.filled_zero {e : Encoding} {symbol? : Option (String × Bool)}
    (h : e.Placed symbol?) : e.filled 0 = e.bytes := by
  unfold filled
  cases hf : e.fixup with
  | none => rfl
  | some f =>
    have hzero := h.zero f (by simp [hf])
    have hends := h.ends f (by simp [hf])
    have hparts : e.bytes = e.bytes.take f.offset ++ le32 0 ++ e.bytes.drop (f.offset + 4) := by
      have hsplit : le32 0 = (e.bytes.drop f.offset).take 4 := hzero.symm
      rw [hsplit, List.append_assoc, ← List.drop_drop, List.take_append_drop,
        List.take_append_drop]
    have hlen : (e.bytes.take f.offset).length = f.offset := by
      rw [List.length_take]
      omega
    have hover := overwrite_append (e.bytes.take f.offset) (le32 0) (e.bytes.drop (f.offset + 4))
      (le32 0) rfl
    rw [hlen, ← hparts] at hover
    exact hover

/-- An instruction with the operands it takes is recovered from its machine code. The decoder reads
exactly its bytes; a symbol is referred to by a zero displacement, at the place that the encoding
states. -/
theorem decode_encode {f : Op} {cond : Cond} {dst src src2 : Option Operand} {e : Encoding}
    (ht : (Inst.op f cond dst src src2).Takes)
    (h : (Inst.op f cond dst src src2).encode = .ok e) :
    (∀ rest, decode (e.bytes ++ rest) = some (encodedInstr f cond dst src src2 0, rest)) ∧
      e.Placed (operandSymbol? dst src src2) := by
  have hdecodes := decodesTo_encode ht h
  refine ⟨fun rest => ?_, hdecodes.placed⟩
  rw [← hdecodes.placed.filled_zero]
  exact hdecodes.decode 0 rest

/-- A comparison of a variable with an immediate. -/
theorem decode_encode_cmp_rip :
    ∃ e, Inst.encode (.binary .cmp (.mem ⟨.rip "x", 4⟩) (.imm 1000)) = .ok e ∧
      decode e.bytes = some (⟨.cmp, ⟨0⟩, [.mem false (.rip 0) 4, .imm 1000]⟩, []) ∧
      e.fixup = some ⟨2, 4, "x", false⟩ := by
  have h : Inst.encode (.binary .cmp (.mem ⟨.rip "x", 4⟩) (.imm 1000)) =
      .ok ⟨[0x81, 0x3d, 0, 0, 0, 0, 0xe8, 3, 0, 0], some ⟨2, 4, "x", false⟩⟩ := rfl
  have ht : Inst.Takes (.binary .cmp (.mem ⟨.rip "x", 4⟩) (.imm 1000)) :=
    ⟨4, .inr (.inr (.inl rfl)), .inr ⟨trivial, rfl⟩, .inr trivial⟩
  exact ⟨_, h, (decode_encode ht h).1 [], rfl⟩

end Backend.Machine
