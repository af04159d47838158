-- The second phase of assembling: every reserved branch is filled in, and after linking every
-- reference of every instruction is resolved. The bytes of direct branches come first: their
-- length, their displacement and what they are decoded to.
import Backend.Proofs.Assembler.FirstPhase

namespace Backend.Machine

open Decoder

/-! ## Offsets as machine words -/

theorem toInt_toInt64 {x : UInt64} (h : x.toNat < 2 ^ 63) : x.toInt64.toInt = x.toNat := by
  have hcond : x.toInt64.toInt = if 2 * x.toNat < 2 ^ 64 then (x.toNat : Int)
      else (x.toNat : Int) - (2 ^ 64 : Nat) := BitVec.toInt_eq_toNat_cond x.toBitVec
  rw [hcond, if_pos (by omega)]

/-- The distance between two offsets. -/
theorem toInt_distance {x y : UInt64} (hx : x.toNat < 2 ^ 63) (hy : y.toNat < 2 ^ 63) :
    (x.toInt64 - y.toInt64).toInt = (x.toNat : Int) - y.toNat := by
  rw [Int64.toInt_sub, toInt_toInt64 hx, toInt_toInt64 hy]
  apply Int.bmod_eq_of_le <;> omega

/-- A distance less a few bytes. -/
theorem toInt_sub_small {d : Int64} {k : Nat} (hk : k < 2 ^ 31)
    (hfits : (d - Int64.ofNat k).toInt < 2 ^ 62) : (d - Int64.ofNat k).toInt = d.toInt - k := by
  have hofNat : (Int64.ofNat k).toInt = k := Int64.toInt_ofNat_of_lt (by omega)
  have hlt := d.toInt_lt
  have hle := d.le_toInt
  rw [Int64.toInt_sub, hofNat, Int.bmod_def] at hfits ⊢
  split at hfits <;> split <;> omega

/-! ## Long and short forms -/

/-- The operations of direct branches. -/
def Op.IsBranch (op : Op) : Prop := op = .jcc ∨ op = .jmp ∨ op = .call

theorem isBranch_of_target {op : Op} {cond : Cond} {dst src src2 : Option Operand} {t : Target}
    (h : (Inst.op op cond dst src src2).branchTarget? = some t) : op.IsBranch := by
  unfold Inst.branchTarget? at h
  split at h
  · rename_i heq
    simp only [Inst.op.injEq] at heq
    exact .inl heq.1
  · rename_i heq
    simp only [Inst.op.injEq] at heq
    exact .inr (.inl heq.1)
  · rename_i heq
    simp only [Inst.op.injEq] at heq
    exact .inr (.inr heq.1)
  · simp at h

/-- The bytes of the long form before its displacement. -/
def longOpcode (op : Op) (cond : Cond) : List UInt8 :=
  match op with
  | .call => [0xe8]
  | .jmp => [0xe9]
  | _ => [0x0f, 0x80 + cond.code]

theorem length_longOpcode {op : Op} (h : op.IsBranch) (cond : Cond) :
    (longOpcode op cond).length + 4 = longSize op := by
  rcases h with rfl | rfl | rfl <;> rfl

/-- A direct branch has a long form if its displacement fits. -/
theorem encodeLong_eq {op : Op} (h : op.IsBranch) (cond : Cond) (disp : Int64) :
    encodeLong op cond disp = if fitsInt32 disp then
      .ok (longOpcode op cond ++ le32 disp.toUInt64.toUInt32) else .error (.longRange disp) := by
  unfold encodeLong
  cases hfits : fitsInt32 disp with
  | false => rfl
  | true => rcases h with rfl | rfl | rfl <;> rfl

/-- A displacement that fits is read back. -/
theorem toInt_low32 {disp : Int64} (h : fitsInt32 disp = true) :
    disp.toUInt64.toUInt32.toInt32.toInt = disp.toInt := by
  have hfits := fitsInt32_iff.mp h
  have hto := toNat_toUInt64 disp
  have hv : disp.toUInt64.toUInt32.toInt32.toInt =
      (disp.toUInt64.toUInt32.toNat : Int).bmod (2 ^ 32) := BitVec.toInt_eq_toNat_bmod _
  rw [hv, UInt64.toNat_toUInt32, Int.bmod_def]
  split <;> omega

theorem lookup_jcc {cond : Cond} (h : cond.code.toNat < 16) (c : Context) :
    lookup? c [0x0f, 0x80 + cond.code] = some (.plain ⟨.jcc, [.rel 4], cond⟩) ∧
      lookup? c [0x70 + cond.code] = some (.plain ⟨.jcc, [.rel 1], cond⟩) ∧
      IsFormOpcode [0x70 + cond.code] := by
  obtain ⟨code⟩ := cond
  rcases condition_cases h with rfl | rfl | rfl | rfl | rfl | rfl | rfl | rfl | rfl | rfl | rfl |
    rfl | rfl | rfl | rfl | rfl <;> exact ⟨rfl, rfl, by decide⟩

/-- Decoding the displacement of a branch. -/
theorem read_rel {op : Op} {cond : Cond} {n : Nat} {bytes rest : List UInt8} {d : Int}
    (h : readInt n bytes = some (d, rest)) (c : Context) :
    (Pattern.plain ⟨op, [.rel n], cond⟩).read c bytes = some (⟨op, cond, [.rel d]⟩, rest) := by
  simp only [Pattern.read, Shape.read, readSlots, Slot.read, h, Option.map_some,
    Option.bind_eq_bind, Option.bind_some]

/-- Decoding the long form of a branch. -/
theorem decode_long {op : Op} (hop : op.IsBranch) {cond : Cond}
    (hcond : op = .jcc → cond.code.toNat < 16) (v : UInt32) (rest : List UInt8) :
    decode (longOpcode op cond ++ le32 v ++ rest) =
      some (⟨op, if op = .jcc then cond else ⟨0⟩, [.rel v.toInt32.toInt]⟩, rest) := by
  have hread := readInt_le32 v rest
  rw [List.append_assoc]
  rcases hop with rfl | rfl | rfl
  · have hform : IsFormOpcode [0x0f, 0x80 + cond.code] := rfl
    have hdecode := decode_opcode false List.mem_cons_self ⟨false, false, false, false, false⟩
      hform (le32 v ++ rest)
    rw [(lookup_jcc (hcond rfl) _).1, Option.bind_some, read_rel hread] at hdecode
    exact hdecode
  · exact (decode_bare (by decide) _).trans (read_rel hread .empty)
  · exact (decode_bare (by decide) _).trans (read_rel hread .empty)

/-- Decoding the short form of a branch. -/
theorem decode_short {op : Op} (hop : op.IsBranch) {cond : Cond} {disp : Int64}
    {bytes : List UInt8} (h : encodeShort op cond disp = .ok bytes) :
    (bytes.length = 2 ∧ op ≠ .call) ∧ fitsInt8 disp = true ∧
      ((op = .jcc → cond.code.toNat < 16) → ∀ rest, decode (bytes ++ rest) =
        some (⟨op, if op = .jcc then cond else ⟨0⟩, [.rel disp.toInt]⟩, rest)) := by
  unfold encodeShort at h
  by_cases hfits : fitsInt8 disp = true
  · have hrange := fitsInt8_iff.mp hfits
    have hbyte : (disp.toUInt64.toUInt8.toNat : Int) = disp.toInt % 256 := by
      have hlow := leNat_low8 disp
      simpa using hlow
    have hread := readInt_byte hrange hbyte
    rw [hfits] at h
    rcases hop with rfl | rfl | rfl
    · obtain rfl := Except.ok.inj h
      refine ⟨⟨rfl, by decide⟩, hfits, fun hcond rest => ?_⟩
      obtain ⟨-, hlook, hform⟩ := lookup_jcc (hcond rfl) .empty
      have hdecode := decode_bare hform (disp.toUInt64.toUInt8 :: rest)
      rw [show oneByte .empty (0x70 + cond.code) = _ from hlook, Option.bind_some,
        read_rel (hread rest)] at hdecode
      exact hdecode
    · obtain rfl := Except.ok.inj h
      exact ⟨⟨rfl, by decide⟩, hfits, fun _ rest => (decode_bare (by decide) _).trans
        (read_rel (hread rest) .empty)⟩
    · simp at h
  · simp only [Bool.not_eq_true] at hfits
    rw [hfits] at h
    rcases hop with rfl | rfl | rfl <;> simp at h

end Backend.Machine

namespace Backend

open CodeUnit (Relocation)
open Machine (Inst Target longSize longOpcode le32 encodeLong fitsInt32)
open Linking

/-! ## One reserved branch -/

namespace PendingBranch

/-- The displacement of a reserved branch: zero if the text does not define its target. -/
def disp (u : CodeUnit) (p : PendingBranch) : Int64 :=
  ((u.textOffset? p.target.name).map fun v =>
    v.toInt64 - (p.pos + UInt64.ofNat (longSize p.op)).toInt64).getD 0

/-- The place and the bytes of a reserved branch. -/
def edit (u : CodeUnit) (p : PendingBranch) : Nat × List UInt8 :=
  (p.pos.toNat, longOpcode p.op p.cond ++ le32 (p.disp u).toUInt64.toUInt32)

/-- The relocation of a reserved branch whose target the text does not define. -/
def external (plt : Bool) (u : CodeUnit) (p : PendingBranch) : List Relocation :=
  if (u.textOffset? p.target.name).isSome then []
  else [⟨p.pos + UInt64.ofNat (longSize p.op) - 4, p.target.name,
    if plt && p.op == .call then .plt32 else .pc32, -4⟩]

/-- What is reserved lies in the bytes from `pos` on. -/
def Inside (pos n : Nat) (p : PendingBranch) : Prop :=
  p.op.IsBranch ∧ pos ≤ p.pos.toNat ∧ p.pos.toNat + longSize p.op ≤ pos + n

/-- Only the offsets of symbols matter of the unit. -/
theorem congr {u v : CodeUnit} (h : v.textOffset? = u.textOffset?) (plt : Bool) :
    disp v = disp u ∧ edit v = edit u ∧ external plt v = external plt u := by
  have hdisp : disp v = disp u := by
    funext p
    simp only [disp, h]
  refine ⟨hdisp, ?_, ?_⟩
  · funext p
    simp only [edit, hdisp]
  · funext p
    simp only [external, h]

/-- The second unit is the first with the branches filled in. -/
structure Filled (plt : Bool) (ps : List PendingBranch) (u v : CodeUnit) : Prop where
  text : v.text = editFrom 0 (ps.map (edit u)) u.text
  relocs : v.relocs = u.relocs ++ ps.flatMap (external plt u)
  offsets : v.textOffset? = u.textOffset?

end PendingBranch

namespace Assembler

theorem patch_inside {u : CodeUnit} {p : PendingBranch} (hlen : u.text.length < 2 ^ 63)
    (h : p.Inside 0 u.text.length) {bytes : List UInt8} (hb : bytes.length = longSize p.op) :
    u.patch p.pos bytes = .ok { u with text := overwrite u.text p.pos.toNat bytes } := by
  obtain ⟨-, -, hle⟩ := h
  have hend : ¬p.pos + UInt64.ofNat bytes.length > u.offset := by
    rw [gt_iff_lt, UInt64.not_lt, UInt64.le_iff_toNat_le, UInt64.toNat_add, CodeUnit.offset, hb,
      UInt64.toNat_ofNat', UInt64.toNat_ofNat']
    omega
  unfold CodeUnit.patch
  rw [if_neg hend, if_neg (by omega)]

theorem setLineBytes_fields (u : CodeUnit) (index : Int) (bytes : List UInt8) :
    (u.setLineBytes index bytes).text = u.text ∧ (u.setLineBytes index bytes).relocs = u.relocs ∧
      (u.setLineBytes index bytes).symbols = u.symbols := by
  unfold CodeUnit.setLineBytes
  split <;> exact ⟨rfl, rfl, rfl⟩

/-- The unit with a branch filled in. -/
def filled (plt : Bool) (u : CodeUnit) (p : PendingBranch) : CodeUnit :=
  let bytes := longOpcode p.op p.cond ++ le32 (p.disp u).toUInt64.toUInt32
  let v : CodeUnit := { u with text := overwrite u.text p.pos.toNat bytes }
  let w := match p.line with
    | some index => v.setLineBytes index bytes
    | none => v
  if (u.textOffset? p.target.name).isSome then w
  else w.addRelocation ⟨p.pos + UInt64.ofNat (longSize p.op) - 4, p.target.name,
    if plt && p.op == .call then .plt32 else .pc32, -4⟩

theorem filled_spec (plt : Bool) (u : CodeUnit) (p : PendingBranch) :
    PendingBranch.Filled plt [p] u (filled plt u p) := by
  let bytes := longOpcode p.op p.cond ++ le32 (p.disp u).toUInt64.toUInt32
  let v : CodeUnit := { u with text := overwrite u.text p.pos.toNat bytes }
  have hline : ∃ w, w.text = v.text ∧ w.relocs = u.relocs ∧ w.symbols = u.symbols ∧
      filled plt u p = if (u.textOffset? p.target.name).isSome then w
        else w.addRelocation ⟨p.pos + UInt64.ofNat (longSize p.op) - 4, p.target.name,
          if plt && p.op == .call then .plt32 else .pc32, -4⟩ := by
    cases hp : p.line with
    | none => exact ⟨v, rfl, rfl, rfl, by simp only [filled, hp]; rfl⟩
    | some index =>
      obtain ⟨h1, h2, h3⟩ := setLineBytes_fields v index bytes
      exact ⟨v.setLineBytes index bytes, h1, h2, h3, by simp only [filled, hp]; rfl⟩
  obtain ⟨w, htext, hrelocs, hsymbols, heq⟩ := hline
  have hoffsets := CodeUnit.textOffset?_congr hsymbols
  rw [heq]
  cases hv : (u.textOffset? p.target.name).isSome with
  | true =>
    refine ⟨htext, ?_, funext hoffsets⟩
    simp [hrelocs, PendingBranch.external, hv]
  | false =>
    obtain ⟨htext', hrelocs'⟩ := CodeUnit.addRelocation_fields w
      ⟨p.pos + UInt64.ofNat (longSize p.op) - 4, p.target.name,
        if plt && p.op == .call then .plt32 else .pc32, -4⟩
    refine ⟨htext'.trans htext, ?_, funext fun m => ?_⟩
    · simp only [Bool.false_eq_true, if_false, hrelocs', hrelocs]
      simp [PendingBranch.external, hv]
    · simp only [Bool.false_eq_true, if_false, CodeUnit.textOffset?_addRelocation]
      exact hoffsets m

/-- The second phase of one branch: it fails if a local target is missing or the displacement does
not fit. -/
theorem resolve_eq (plt : Bool) {u : CodeUnit} {p : PendingBranch}
    (hlen : u.text.length < 2 ^ 63) (h : p.Inside 0 u.text.length) :
    resolve plt u p =
      if (u.textOffset? p.target.name).isNone && p.target.isLocal then
        .error (.undefinedBranch p.target.name)
      else if fitsInt32 (p.disp u) then .ok (filled plt u p)
      else .error (.encode p.inst (.longRange (p.disp u))) := by
  have hdist : (textDistance? u p.target.name (p.pos + UInt64.ofNat (longSize p.op))).getD 0 =
      p.disp u := by
    rw [textDistance?_eq]
    rfl
  have hsome : (textDistance? u p.target.name
      (p.pos + UInt64.ofNat (longSize p.op))).isSome = (u.textOffset? p.target.name).isSome := by
    rw [textDistance?_eq, Option.isSome_map]
  have hnone : (textDistance? u p.target.name
      (p.pos + UInt64.ofNat (longSize p.op))).isNone = (u.textOffset? p.target.name).isNone := by
    rw [textDistance?_eq, Option.isNone_map]
  have hbytes : (longOpcode p.op p.cond ++ le32 (p.disp u).toUInt64.toUInt32).length =
      longSize p.op := by
    rw [List.length_append, Machine.length_le32, Machine.length_longOpcode h.1]
  unfold resolve
  simp only [hdist, hsome, hnone]
  cases hmissing : (u.textOffset? p.target.name).isNone && p.target.isLocal with
  | true => rfl
  | false =>
    simp only [Machine.encodeLong_eq h.1]
    cases hfits : fitsInt32 (p.disp u) with
    | false => rfl
    | true =>
      simp only [if_true, encoded, bind, Except.bind, pure, Except.pure, hbytes, bne_self_eq_false,
        Bool.false_eq_true, if_false, patch_inside hlen h hbytes, filled]
      cases (u.textOffset? p.target.name).isSome <;> rfl

/-! ## All reserved branches -/

/-- The second phase: it succeeds with every branch filled in, or some branch has a local target
that the text does not define or a displacement that does not fit. -/
theorem resolveAll_spec (plt : Bool) {ps : List PendingBranch} {u : CodeUnit}
    (hlen : u.text.length < 2 ^ 63) (h : ∀ p ∈ ps, p.Inside 0 u.text.length) :
    (∀ v, resolveAll plt u ps = (v, none) →
      PendingBranch.Filled plt ps u v ∧ ∀ p ∈ ps, fitsInt32 (p.disp u) = true) ∧
    (∀ v e, resolveAll plt u ps = (v, some e) → ∃ p ∈ ps,
      u.textOffset? p.target.name = none ∧ p.target.isLocal = true ∨
        fitsInt32 (p.disp u) = false) := by
  induction ps generalizing u with
  | nil =>
    refine ⟨fun v hv => ?_, fun v e he => ?_⟩
    · obtain rfl : u = v := congrArg Prod.fst hv
      exact ⟨⟨rfl, (List.append_nil _).symm, rfl⟩, by simp⟩
    · simp [resolveAll] at he
  | cons p ps ih =>
    have hspec := filled_spec plt u p
    have hlen' : (filled plt u p).text.length = u.text.length := by
      rw [hspec.text, length_editFrom]
    have hrest := ih (u := filled plt u p) (by rw [hlen']; exact hlen)
      (fun q hq => by rw [hlen']; exact h q (List.mem_cons_of_mem _ hq))
    obtain ⟨hdisp, hedit, hexternal⟩ := PendingBranch.congr hspec.offsets plt
    simp only [resolveAll, resolve_eq plt hlen (h p List.mem_cons_self)]
    by_cases hmissing : (u.textOffset? p.target.name).isNone && p.target.isLocal
    · simp only [hmissing, if_true]
      refine ⟨fun v hv => by simp at hv, fun v e _ => ⟨p, List.mem_cons_self, .inl ?_⟩⟩
      simpa using hmissing
    · simp only [hmissing, Bool.false_eq_true, if_false]
      by_cases hfits : fitsInt32 (p.disp u) = true
      · simp only [hfits, if_true]
        refine ⟨fun v hv => ?_, fun v e he => ?_⟩
        · obtain ⟨hfilled, hall⟩ := hrest.1 v hv
          refine ⟨⟨?_, ?_, hfilled.offsets.trans hspec.offsets⟩, ?_⟩
          · rw [hfilled.text, hspec.text, hedit, ← editFrom_append]
            rfl
          · rw [hfilled.relocs, hspec.relocs, hexternal]
            simp
          · intro q hq
            rcases List.mem_cons.mp hq with rfl | hq
            · exact hfits
            · rw [← hdisp]
              exact hall q hq
        · obtain ⟨q, hq, hcause⟩ := hrest.2 v e he
          rw [hspec.offsets, hdisp] at hcause
          exact ⟨q, List.mem_cons_of_mem _ hq, hcause⟩
      · simp only [hfits, Bool.false_eq_true, if_false]
        exact ⟨fun v hv => by simp at hv,
          fun v e _ => ⟨p, List.mem_cons_self, .inr (by simpa using hfits)⟩⟩

end Assembler

end Backend
