-- Decoding the scalar float instructions: moves, arithmetic, conversions and fused
-- multiplications.
import Backend.Proofs.Machine.Decoding.Integer

namespace Backend.Machine

open Decoder

/-- The widths of scalars. -/
def IsScalar (w : UInt8) : Prop := w = 4 ∨ w = 8

/-- The operand at another width. -/
def Operand.sized (w : UInt8) : Operand → Operand
  | .reg r => .reg ⟨r.id, w⟩
  | .xmm x => .xmm ⟨x.id, w⟩
  | .mem m => .mem (m.sized w)
  | o => o

theorem Operand.IsRm.sized {w : UInt8} {o : Operand} (h : o.IsRm w) : o.sized w = o := by
  rcases h with h | h
  · obtain ⟨r, rfl, -, rfl⟩ := h.eq
    rfl
  · obtain ⟨m, rfl, -, rfl⟩ := h.eq
    rfl

theorem xmmWidth_isXrm {w : UInt8} {o : Operand} (h : o.IsXrm w) : xmmWidth (some o) = .ok w := by
  rcases h with h | h
  · obtain ⟨x, rfl, -, rfl⟩ := h.eq
    rfl
  · obtain ⟨m, rfl, -, rfl⟩ := h.eq
    rfl

theorem bind_xmmWidth {β : Type} {w : UInt8} {o : Operand} (ho : o.IsXrm w)
    {f : UInt8 → Except EncodeError β} {r : β} (h : (xmmWidth (some o) >>= f) = .ok r) :
    f w = .ok r := by
  rw [xmmWidth_isXrm ho] at h
  exact h

/-! ## Forms -/

theorem scalarMark_mem (w : UInt8) : scalarMark w ∈ legacies := by
  unfold scalarMark
  split <;> decide

/-- The mandatory prefix names the width. -/
theorem scalar_mark {w : UInt8} (hw : IsScalar w) {c : Context}
    (hrepne : c.repne = (scalarMark w == [0xf2])) (hrep : c.rep = (scalarMark w == [0xf3]))
    (slots : UInt8 → List Slot) (op : Op) : scalar c slots op = some (.always op (slots w)) := by
  unfold scalar scalarWidth?
  rw [hrepne, hrep]
  rcases hw with rfl | rfl <;> rfl

section

variable {mark : List UInt8} {w : Bool} {opcode reg : UInt8} {o : Operand} {e : Encoding}

/-- Decoding a scalar form. -/
theorem decodesTo_scalarForm (h : scalarForm mark w opcode reg (some o) = .ok e)
    (valid : o.ValidRm) (hmark : mark ∈ legacies) (hreg : reg.toNat < 16) {op : Op}
    {slots : List Slot}
    (hlook : ∀ c : Context, c.w = w → c.size = (mark == [0x66]) → c.repne = (mark == [0xf2]) →
      c.rep = (mark == [0xf3]) → twoByte c opcode = some (.always op slots))
    {os : Int → List Decoder.Operand}
    (hos : ∀ (v : UInt32) (rest : List UInt8) (c : Context), c.fs = o.isTls →
      (∀ r, o = .reg r → r.needsBytePrefix = true → c.hasRex = true) →
      readSlots c ⟨reg, some (o.rm v), 0⟩ slots rest = some (os v.toInt32.toInt, rest)) :
    e.DecodesTo (fun x => ⟨op, ⟨0⟩, os x⟩) o.symbol? := by
  refine ⟨fun v rest => ?_, ModrmForm.placed h⟩
  have hop : IsFormOpcode [0x0f, opcode] := rfl
  exact decode_shape h rfl valid hmark hop hreg
    (fun c hc => hlook c hc.w hc.size hc.repne hc.rep) rfl
    fun c hc => hos v rest c hc.fs hc.byte

/-- An SSE register, then an SSE register or memory. -/
theorem decodesTo_xmm_xrm {x : Xmm} (hx : x.id.toNat < 16) {k : UInt8} (ho : o.IsXrm k)
    (h : scalarForm mark w opcode x.id (some o) = .ok e) (hmark : mark ∈ legacies) {op : Op}
    (hlook : ∀ c : Context, c.w = w → c.size = (mark == [0x66]) → c.repne = (mark == [0xf2]) →
      c.rep = (mark == [0xf3]) → twoByte c opcode = some (.always op [.xreg x.width, .xrm k]))
    (n : UInt8) :
    e.DecodesTo (fun d => ⟨op, ⟨0⟩, [.xmm x, o.view d n]⟩) o.symbol? := by
  refine decodesTo_scalarForm h ho.valid hmark hx hlook fun v rest c hfs _ => ?_
  simp only [readSlots, read_xrm ho hfs n, read_xreg, Option.bind_eq_bind, Option.bind_some]

end

/-! ## Instructions -/

/-- Scalar arithmetic. -/
def Op.IsScalarAlu (op : Op) : Prop := op = .adds ∨ op = .subs ∨ op = .muls ∨ op = .divs

theorem decodesTo_scalarAlu {op : Op} (hop : op.IsScalarAlu) {x : Xmm} (hx : x.id.toNat < 16)
    (hw : IsScalar x.width) {s : Operand} (hs : s.IsXrm x.width) {e : Encoding}
    (h : scalarForm (scalarMark x.width) false (scalarOpcode op) x.id (some s) = .ok e)
    (n : UInt8) :
    e.DecodesTo (fun d => ⟨op, ⟨0⟩, [.xmm x, s.view d n]⟩) s.symbol? := by
  refine decodesTo_xmm_xrm hx hs h (scalarMark_mem _) (fun c _ _ hrepne hrep => ?_) n
  have hmark := scalar_mark hw hrepne hrep (fun w => [.xreg w, .xrm w]) op
  rcases hop with rfl | rfl | rfl | rfl <;> exact hmark

/-- Moves of scalars. -/
theorem decodesTo_movs {w : UInt8} (hw : IsScalar w) {d s : Operand} (hd : d.IsXrm w)
    (hs : s.IsXrm w) {e : Encoding} (h : encodeMovs (some d) (some s) = .ok e) (n : UInt8) :
    e.DecodesTo (fun y => ⟨.movs, ⟨0⟩, [d.view y n, s.view y n]⟩)
      (d.symbol?.or s.symbol?) := by
  rcases hd with hd | hd
  · obtain ⟨x, rfl, hx, rfl⟩ := hd.eq
    exact decodesTo_xmm_xrm hx hs h (scalarMark_mem _) (fun c _ _ hrepne hrep =>
      scalar_mark hw hrepne hrep (fun w => [.xreg w, .xrm w]) .movs) n
  · obtain ⟨m, rfl, -, rfl⟩ := hd.eq
    rcases hs with hs | hs
    · obtain ⟨x, rfl, hx, hwidth⟩ := hs.eq
      rw [Operand.symbol?_xmm, Option.or_none]
      refine decodesTo_scalarForm h (Operand.IsXrm.valid (.inr hd)) (scalarMark_mem _) hx
        (fun c _ _ hrepne hrep => scalar_mark hw hrepne hrep (fun w => [.xrm w, .xreg w]) .movs)
        fun v rest c hfs _ => ?_
      have hxmm : Xmm.mk x.id m.width = x := by rw [← hwidth]
      simp only [readSlots, read_xrm (.inr hd) hfs n, read_xreg, Option.bind_eq_bind,
        Option.bind_some, hxmm]
      rfl
    · obtain ⟨m', rfl, -⟩ := hs.eq
      simp [encodeMovs] at h

/-- Comparisons. -/
theorem decodesTo_ucomis {x : Xmm} (hx : x.id.toNat < 16) (hw : IsScalar x.width) {s : Operand}
    (hs : s.IsXrm x.width) {e : Encoding}
    (h : scalarForm (if x.width == 8 then [0x66] else []) false 0x2e x.id (some s) = .ok e)
    (n : UInt8) :
    e.DecodesTo (fun d => ⟨.ucomis, ⟨0⟩, [.xmm x, s.view d n]⟩) s.symbol? := by
  have hmark : (if x.width == 8 then [(0x66 : UInt8)] else []) ∈ legacies := by
    split <;> decide
  refine decodesTo_xmm_xrm hx hs h hmark (fun c _ hsize _ _ => ?_) n
  have hlook : twoByte c 0x2e = some (if c.size then .always .ucomis [.xreg 8, .xrm 8]
      else .always .ucomis [.xreg 4, .xrm 4]) := rfl
  rw [hlook, hsize]
  rcases hw with hw | hw <;> rw [hw] <;> rfl

/-- Conversions between scalars. -/
theorem decodesTo_cvts2s {x : Xmm} (hx : x.id.toNat < 16) (hw : IsScalar x.width) {k : UInt8}
    (hk : IsScalar k) (hne : x.width ≠ k) {s : Operand} (hs : s.IsXrm k) {e : Encoding}
    (h : scalarForm (scalarMark k) false 0x5a x.id (some s) = .ok e) (n : UInt8) :
    e.DecodesTo (fun d => ⟨.cvts2s, ⟨0⟩, [.xmm x, s.view d n]⟩) s.symbol? := by
  have hother : otherScalar k = x.width := by
    rcases hw with hw | hw <;> rcases hk with rfl | rfl <;> rw [hw] at hne ⊢ <;>
      first | rfl | exact absurd rfl hne
  refine decodesTo_xmm_xrm hx hs h (scalarMark_mem _) (fun c _ _ hrepne hrep => ?_) n
  have hmark := scalar_mark hk hrepne hrep (fun w => [.xreg (otherScalar w), .xrm w]) .cvts2s
  rw [hother] at hmark
  exact hmark

/-- The exclusive or of whole registers. -/
theorem decodesTo_xorps {x : Xmm} (hx : x.id.toNat < 16) {w : UInt8} {s : Operand}
    (hs : s.IsXmm w ∨ s.IsMem 16) {e : Encoding}
    (h : scalarForm [] false 0x57 x.id (some s) = .ok e) (n : UInt8) :
    e.DecodesTo (fun d => ⟨.xorps, ⟨0⟩, [.xmm ⟨x.id, 16⟩, (s.sized 16).view d n]⟩)
      s.symbol? := by
  have hs : (s.sized 16).IsXrm 16 ∧ s.symbol? = (s.sized 16).symbol? ∧
      scalarForm [] false 0x57 x.id (some (s.sized 16)) = .ok e := by
    rcases hs with hs | hs
    · obtain ⟨y, rfl, hy, -⟩ := hs.eq
      exact ⟨.inl ⟨hy, rfl⟩, rfl, h⟩
    · obtain ⟨m, rfl, hm, -⟩ := hs.eq
      exact ⟨.inr ⟨hm, rfl⟩, rfl, h⟩
  obtain ⟨hs, hsymbol, h⟩ := hs
  rw [hsymbol]
  refine decodesTo_xmm_xrm (x := ⟨x.id, 16⟩) hx hs h (by decide) (fun c _ hsize _ _ => ?_) n
  have hlook : twoByte c 0x57 =
    if c.size then none else some (.always .xorps [.xreg 16, .xrm 16]) := rfl
  rw [hlook, hsize]
  rfl

/-- The width of the general purpose operand of a conversion or transfer. -/
theorem word_eq {k : UInt8} (hk : IsScalar k) {c : Context} (h : c.w = (k == 8)) :
    (if c.w then (8 : UInt8) else 4) = k := by
  rw [h]
  rcases hk with rfl | rfl <;> rfl

/-- Conversions from integers. -/
theorem decodesTo_cvtsi2s {x : Xmm} (hx : x.id.toNat < 16) (hw : IsScalar x.width) {k : UInt8}
    (hk : IsScalar k) {s : Operand} (hs : s.IsRm k) {e : Encoding}
    (h : scalarForm (scalarMark x.width) (k == 8) 0x2a x.id (some s) = .ok e) (n : UInt8) :
    e.DecodesTo (fun d => ⟨.cvtsi2s, ⟨0⟩, [.xmm x, s.view d n]⟩) s.symbol? := by
  have hlook : ∀ c : Context, c.w = (k == 8) → c.size = (scalarMark x.width == [0x66]) →
      c.repne = (scalarMark x.width == [0xf2]) → c.rep = (scalarMark x.width == [0xf3]) →
      twoByte c 0x2a = some (.always .cvtsi2s [.xreg x.width, .rm k]) := by
    intro c hlong _ hrepne hrep
    have hmark := scalar_mark hw hrepne hrep (fun w => [.xreg w, .rm (if c.w then 8 else 4)])
      .cvtsi2s
    rw [← word_eq hk hlong]
    exact hmark
  refine decodesTo_scalarForm h hs.valid (scalarMark_mem _) hx hlook fun v rest c hfs hbyte => ?_
  simp only [readSlots, read_rm hs hfs hbyte n, read_xreg, Option.bind_eq_bind, Option.bind_some]

/-- Conversions to integers. -/
theorem decodesTo_cvtts2si {r : Reg} (hr : r.id.toNat < 16) (hw : IsScalar r.width) {k : UInt8}
    (hk : IsScalar k) {s : Operand} (hs : s.IsXrm k) {e : Encoding}
    (h : scalarForm (scalarMark k) (r.width == 8) 0x2c r.id (some s) = .ok e) (n : UInt8) :
    e.DecodesTo (fun d => ⟨.cvtts2si, ⟨0⟩, [.reg r, s.view d n]⟩) s.symbol? := by
  have hlook : ∀ c : Context, c.w = (r.width == 8) → c.size = (scalarMark k == [0x66]) →
      c.repne = (scalarMark k == [0xf2]) → c.rep = (scalarMark k == [0xf3]) →
      twoByte c 0x2c = some (.always .cvtts2si [.reg r.width, .xrm k]) := by
    intro c hlong _ hrepne hrep
    have hmark := scalar_mark hk hrepne hrep (fun w => [.reg (if c.w then 8 else 4), .xrm w])
      .cvtts2si
    rw [← word_eq hw hlong]
    exact hmark
  refine decodesTo_scalarForm h hs.valid (scalarMark_mem _) hr hlook fun v rest c hfs _ => ?_
  have hrex : r.needsBytePrefix = true → c.hasRex = true := by
    have hne : r.width ≠ 1 := by rcases hw with hw | hw <;> rw [hw] <;> decide
    simp [Reg.needsBytePrefix, hne]
  simp only [readSlots, read_xrm hs hfs n, read_reg hrex, Option.bind_eq_bind, Option.bind_some]

theorem lookup_movq {k : UInt8} (hk : IsScalar k) {c : Context} (hlong : c.w = (k == 8))
    (hsize : c.size = true) :
    twoByte c 0x6e = some (.always .movq [.xreg k, .rm k]) ∧
      twoByte c 0x7e = some (.always .movq [.rm k, .xreg k]) := by
  have hload : twoByte c 0x6e = if c.size then some (.always .movq
    [.xreg (if c.w then 8 else 4), .rm (if c.w then 8 else 4)]) else none := rfl
  have hstore : twoByte c 0x7e = if c.size then some (.always .movq
    [.rm (if c.w then 8 else 4), .xreg (if c.w then 8 else 4)]) else none := rfl
  rw [hload, hstore, word_eq hk hlong, hsize]
  exact ⟨rfl, rfl⟩

/-- Transfers between the register files, at the width of the general purpose operand. -/
theorem decodesTo_movq {w k : UInt8} (hk : IsScalar k) {d s : Operand}
    (ho : d.IsXmm w ∧ s.IsRm k ∨ d.IsRm k ∧ s.IsXmm w) {e : Encoding}
    (h : encodeMovq (some d) (some s) = .ok e) (n : UInt8) :
    e.DecodesTo (fun y => ⟨.movq, ⟨0⟩, [(d.sized k).view y n, (s.sized k).view y n]⟩)
      (d.symbol?.or s.symbol?) := by
  rcases ho with ⟨hd, hs⟩ | ⟨hd, hs⟩
  · obtain ⟨x, rfl, hx, -⟩ := hd.eq
    replace h := bind_gprWidth hs h
    refine decodesTo_scalarForm h hs.valid (by decide) hx
      (fun c hlong hsize _ _ => (lookup_movq hk hlong hsize).1) fun v rest c hfs hbyte => ?_
    rw [hs.sized]
    simp only [readSlots, read_rm hs hfs hbyte n, read_xreg, Option.bind_eq_bind, Option.bind_some]
    rfl
  · obtain ⟨x, rfl, hx, -⟩ := hs.eq
    have h : scalarForm [0x66] (k == 8) 0x7e x.id (some d) = .ok e := by
      rcases hd with hd | hd
      · obtain ⟨r, rfl, -, rfl⟩ := hd.eq
        exact h
      · obtain ⟨m, rfl, -, rfl⟩ := hd.eq
        exact h
    rw [Operand.symbol?_xmm, Option.or_none]
    refine decodesTo_scalarForm h hd.valid (by decide) hx
      (fun c hlong hsize _ _ => (lookup_movq hk hlong hsize).2) fun v rest c hfs hbyte => ?_
    rw [hd.sized]
    simp only [readSlots, read_rm hd hfs hbyte n, read_xreg, Option.bind_eq_bind, Option.bind_some]
    rfl

/-- Fused multiplications. -/
def Op.IsFma (op : Op) : Prop := op = .vfmadd231 ∨ op = .vfmsub231 ∨ op = .vfnmadd231

theorem decodesTo_fma {op : Op} (hop : op.IsFma) {x y : Xmm} (hx : x.id.toNat < 16)
    (hy : y.id.toNat < 16) (hw : IsScalar x.width) (hxy : y.width = x.width) {s : Operand}
    (hs : s.IsXrm x.width) {e : Encoding}
    (h : VexForm.encode ⟨x.width == 8, fmaOpcode op, x.id, y.id, some s⟩ = .ok e) (n : UInt8) :
    e.DecodesTo (fun d => ⟨op, ⟨0⟩, [.xmm x, .xmm y, s.view d n]⟩) s.symbol? := by
  refine ⟨fun v rest => ?_, VexForm.placed h⟩
  obtain ⟨c, hfs, hdecode⟩ := decode_vex h rfl hs.valid hx hy v rest
  have hwidth : (if x.width == 8 then (8 : UInt8) else 4) = x.width := by
    rcases hw with hw | hw <;> rw [hw] <;> rfl
  have hlook : ∀ w, vexOpcode w (fmaOpcode op) = some ⟨op, [.xreg w, .vreg w, .xrm w], ⟨0⟩⟩ := by
    rcases hop with rfl | rfl | rfl <;> exact fun _ => rfl
  have hxmm : Xmm.mk y.id x.width = y := by rw [← hxy]
  rw [hdecode]
  simp only [hwidth, hlook, Option.bind_some, Shape.read, readSlots, read_xrm hs hfs n, read_xreg,
    read_vreg, Option.bind_eq_bind, hxmm, Option.map_some]

end Backend.Machine
