-- After both phases and linking, the text is that of the instructions with every reference
-- resolved.
import Backend.Proofs.Assembler.SecondPhase
import Backend.Proofs.Machine.Decoding.Fixups

namespace Backend.Assembler

open CodeUnit (Relocation)
open Machine (Inst Target longSize longOpcode le32 encodeLong fitsInt32)
open Linking

/-! ## Offsets -/

theorem toNat_ofNat_pos {n : Nat} (h : n < 2 ^ 63) : (UInt64.ofNat n).toNat = n := by
  rw [UInt64.toNat_ofNat', Nat.mod_eq_of_lt (by omega)]

theorem toNat_offset {n k : Nat} (h : n + k < 2 ^ 63) :
    (UInt64.ofNat n + UInt64.ofNat k).toNat = n + k := by
  rw [← UInt64.ofNat_add, toNat_ofNat_pos h]

/-- The distance from the end of a branch to an offset. -/
theorem distance_less {value : UInt64} (hvalue : value.toNat < 2 ^ 63) {n : Nat} (hn : n < 2 ^ 63)
    {k : Nat} (hk : k < 2 ^ 31)
    (hfits : (value.toInt64 - (UInt64.ofNat n).toInt64 - Int64.ofNat k).toInt < 2 ^ 62) :
    (value.toInt64 - (UInt64.ofNat n).toInt64 - Int64.ofNat k).toInt =
      (value.toNat : Int) - (n + k) := by
  have hdist := Machine.toInt_distance hvalue ((toNat_ofNat_pos hn).trans_lt hn)
  rw [toNat_ofNat_pos hn] at hdist
  rw [Machine.toInt_sub_small hk hfits, hdist]
  omega

theorem toInt_ofInt {v : Int} (h : Fits v) : (Int32.ofInt v).toUInt32.toInt32.toInt = v :=
  Int32.toInt_ofInt_of_le h.1 h.2

/-! ## Where the parts of a draft are -/

/-- The field of the relocation lies in the `n` bytes from `pos` on. -/
def Within (pos n : Nat) (r : Relocation) : Prop :=
  pos ≤ r.offset.toNat ∧ r.offset.toNat + 4 ≤ pos + n

theorem longSize_bounds (op : Machine.Op) : 5 ≤ longSize op ∧ longSize op ≤ 6 := by
  unfold longSize
  split <;> omega

/-- The relocation and the reserved branch of an instruction lie in its bytes. -/
theorem Item.inside {u : CodeUnit} {pos : Nat} {inst : Inst} {chunk : List UInt8}
    {rels : List Relocation} {pends : List PendingBranch}
    (h : Item u pos inst chunk rels pends) (hlen : pos + chunk.length < 2 ^ 63) :
    (∀ r ∈ rels, Within pos chunk.length r) ∧ ∀ p ∈ pends, p.Inside pos chunk.length := by
  cases h with
  | label offset => simp
  | short branch offset encoded => simp
  | long branch offset encoded => simp
  | @reserved op cond dst src src2 target line branch =>
    refine ⟨by simp, ?_⟩
    simp only [List.mem_singleton, forall_eq]
    refine ⟨Machine.isBranch_of_target branch, ?_⟩
    rw [toNat_ofNat_pos (by omega), List.length_replicate]
    exact ⟨Nat.le_refl _, Nat.le_refl _⟩
  | @plain op cond dst src src2 e branch encoded =>
    refine ⟨fun r hr => ?_, by simp⟩
    obtain ⟨symbol?, placed⟩ := Machine.PlacesFixup.inst _ _ encoded
    rw [Option.mem_toList, Option.map_eq_some_iff] at hr
    obtain ⟨f, hf, rfl⟩ := hr
    have hends := placed.ends f hf
    have hoffset : (fixupRelocation (UInt64.ofNat pos) f).offset.toNat = pos + f.offset := by
      unfold fixupRelocation
      split <;> exact toNat_offset (by omega)
    unfold Within
    omega

theorem Draft.inside {u : CodeUnit} {pos : Nat} {insts : List Inst} {text : List UInt8}
    {rels : List Relocation} {pends : List PendingBranch}
    (h : Draft u pos insts text rels pends) (hlen : pos + text.length < 2 ^ 63) :
    (∀ r ∈ rels, Within pos text.length r) ∧ ∀ p ∈ pends, p.Inside pos text.length := by
  induction h with
  | nil pos => simp
  | @cons pos inst insts chunk text rels rels' pends pends' item rest ih =>
    rw [List.length_append] at hlen ⊢
    obtain ⟨hrels, hpends⟩ := item.inside (by omega)
    obtain ⟨hrels', hpends'⟩ := ih (by omega)
    constructor
    · intro r hr
      unfold Within at hrels hrels' ⊢
      rcases List.mem_append.mp hr with hr | hr
      · have := hrels r hr
        omega
      · have := hrels' r hr
        omega
    · intro p hp
      unfold PendingBranch.Inside at hpends hpends' ⊢
      rcases List.mem_append.mp hp with hp | hp
      · obtain ⟨hop, h1, h2⟩ := hpends p hp
        exact ⟨hop, h1, by omega⟩
      · obtain ⟨hop, h1, h2⟩ := hpends' p hp
        exact ⟨hop, by omega, by omega⟩

/-! ## What linking makes of one instruction -/

/-- The place and the bytes of a relocated field. -/
def fieldEdit (l : Addresses) (u : CodeUnit) (r : Relocation) : Nat × List UInt8 :=
  (r.offset.toNat, field ((value? l u r).getD 0))

/-- All relocations of an instruction or a list of them. -/
def allRelocs (plt : Bool) (u : CodeUnit) (rels : List Relocation) (pends : List PendingBranch) :
    List Relocation :=
  rels ++ pends.flatMap (PendingBranch.external plt u)

/-- What the second phase and the linker change. -/
def allEdits (l : Addresses) (plt : Bool) (u : CodeUnit) (rels : List Relocation)
    (pends : List PendingBranch) : List (Nat × List UInt8) :=
  pends.map (PendingBranch.edit u) ++ (allRelocs plt u rels pends).map (fieldEdit l u)

section

variable {u : CodeUnit} {pos : Nat} {l : Addresses} {plt : Bool}

/-- A branch to a symbol of the text that has the right displacement. -/
theorem branchSettled_text {op : Machine.Op} {cond : Machine.Cond} {name : String}
    {value : UInt64} (hv : u.textOffset? name = some value) {chunk : List UInt8} {d : Int}
    (hlength : chunk.length = longSize op ∨ chunk.length = 2 ∧ op ≠ .call)
    (hd : d = (value.toNat : Int) - (pos + chunk.length))
    (hdecode : (op = .jcc → cond.code.toNat < 16) → ∀ rest, Machine.Decoder.decode (chunk ++ rest) =
      some (⟨op, if op = .jcc then cond else ⟨0⟩, [.rel d]⟩, rest)) :
    BranchSettled l u pos op cond name chunk [] := by
  refine ⟨hlength, by simp [hv], fun _ => ⟨d, ?_, hdecode⟩⟩
  simp only [Addresses.of, hv]
  omega

/-- The long form of a branch to a symbol of the text. -/
theorem branchSettled_long {op : Machine.Op} (hop : op.IsBranch) {cond : Machine.Cond}
    {name : String} {value : UInt64} (hv : u.textOffset? name = some value) {disp : Int64}
    (hfits : fitsInt32 disp = true)
    (hdisp : disp.toInt = (value.toNat : Int) - (pos + longSize op)) :
    BranchSettled l u pos op cond name (longOpcode op cond ++ le32 disp.toUInt64.toUInt32) [] := by
  have hsize := Machine.length_longOpcode hop cond
  have hlength : (longOpcode op cond ++ le32 disp.toUInt64.toUInt32).length = longSize op := by
    rw [List.length_append, Machine.length_le32, hsize]
  refine branchSettled_text hv (d := disp.toInt) (.inl hlength) ?_ fun hcond rest => ?_
  · rw [hdisp, hlength]
  · have hdecode := Machine.decode_long hop hcond disp.toUInt64.toUInt32 rest
    rw [Machine.toInt_low32 hfits] at hdecode
    exact hdecode

/-- A branch to another symbol, once its field is relocated. -/
theorem branchSettled_external {op : Machine.Op} (hop : op.IsBranch) {cond : Machine.Cond}
    {r : Relocation} (hv : u.textOffset? r.symbol = none)
    (hkind : r.kind = .pc32 ∨ r.kind = .plt32) (haddend : r.addend = -4)
    (hplace : r.offset.toNat = pos + (longOpcode op cond).length) (w : UInt32) :
    BranchSettled l u pos op cond r.symbol
      (editFrom pos [fieldEdit l u r] (longOpcode op cond ++ le32 w)) [r] := by
  have hsize := Machine.length_longOpcode hop cond
  obtain ⟨x, hx⟩ : ∃ x, x = l.of u r.symbol - (l.text + (pos + longSize op : Nat)) := ⟨_, rfl⟩
  have hvalue : value? l u r = some x := by
    rw [value?_relative l u hkind, haddend, hplace, hx, ← hsize,
      show (-4 : Int64).toInt = -4 from rfl]
    refine congrArg some ?_
    omega
  have hfield : editFrom pos [fieldEdit l u r] (longOpcode op cond ++ le32 w) =
      longOpcode op cond ++ field x := by
    have hover := overwrite_append (longOpcode op cond) (le32 w) [] (field x) rfl
    simp only [List.append_nil] at hover
    simp only [fieldEdit, hvalue, Option.getD_some, editFrom, List.foldl_cons, List.foldl_nil,
      hplace, Nat.add_sub_cancel_left]
    exact hover
  rw [hfield]
  have hlength : (longOpcode op cond ++ field x).length = longSize op := by
    rw [← hsize, List.length_append]
    rfl
  refine ⟨.inl hlength, by simp [hv], fun hfits => ⟨x, ?_, fun hcond rest => ?_⟩⟩
  · rw [hlength, hx]
    push_cast
    omega
  · have hdecode := Machine.decode_long hop hcond (Int32.ofInt x).toUInt32 rest
    rw [toInt_ofInt (hfits r List.mem_cons_self x hvalue)] at hdecode
    exact hdecode

/-- A reserved branch, filled in and relocated. -/
theorem reserved_settled {op : Machine.Op} {cond : Machine.Cond} {target : Target} {inst : Inst}
    {line : Option Nat} (hop : op.IsBranch) (hlen : pos + longSize op < 2 ^ 63)
    (hin : ∀ name value, u.textOffset? name = some value → value.toNat < 2 ^ 63)
    {p : PendingBranch} (hp : p = ⟨op, cond, target, inst, UInt64.ofNat pos, line⟩)
    (hdisp : fitsInt32 (p.disp u) = true) :
    BranchSettled l u pos op cond target.name
      (editFrom pos (p.edit u :: (p.external plt u).map (fieldEdit l u))
        (List.replicate (longSize op) 0)) (p.external plt u) := by
  have hsize := Machine.length_longOpcode hop cond
  have hbounds := longSize_bounds op
  have hpos : (UInt64.ofNat pos).toNat = pos := toNat_ofNat_pos (by omega)
  have hend : (UInt64.ofNat pos + UInt64.ofNat (longSize op)).toNat = pos + longSize op :=
    toNat_offset hlen
  have hpatched : editFrom pos [p.edit u] (List.replicate (longSize op) 0) =
      longOpcode op cond ++ le32 (p.disp u).toUInt64.toUInt32 := by
    have hbytes : (longOpcode op cond ++ le32 (p.disp u).toUInt64.toUInt32).length =
        (List.replicate (longSize op) (0 : UInt8)).length := by
      rw [List.length_append, Machine.length_le32, hsize, List.length_replicate]
    have hover := overwrite_append [] _ [] _ hbytes
    simp only [List.nil_append, List.append_nil, List.length_nil] at hover
    subst hp
    simp only [editFrom, List.foldl_cons, List.foldl_nil, PendingBranch.edit, hpos, Nat.sub_self]
    exact hover
  rw [← List.singleton_append, editFrom_append, hpatched]
  cases hv : u.textOffset? target.name with
  | some value =>
    have hexternal : p.external plt u = [] := by simp [PendingBranch.external, hp, hv]
    have hvalue : (p.disp u).toInt = (value.toNat : Int) - (pos + longSize op) := by
      have hdist := Machine.toInt_distance (hin _ _ hv) (hend.trans_lt hlen)
      rw [hend, Nat.cast_add] at hdist
      rw [← hdist]
      simp [PendingBranch.disp, hp, hv]
    rw [hexternal]
    exact branchSettled_long hop hv hdisp hvalue
  | none =>
    have hexternal : p.external plt u = [⟨UInt64.ofNat pos + UInt64.ofNat (longSize op) - 4,
        target.name, if plt && op == .call then .plt32 else .pc32, -4⟩] := by
      simp [PendingBranch.external, hp, hv]
    rw [hexternal]
    refine branchSettled_external (r := ⟨UInt64.ofNat pos + UInt64.ofNat (longSize op) - 4,
      target.name, if plt && op == .call then .plt32 else .pc32, -4⟩) hop hv ?_ rfl ?_ _
    · simp only
      split <;> simp
    · rw [UInt64.toNat_sub_of_le, hend, ← hsize]
      · rfl
      · rw [UInt64.le_iff_toNat_le, hend]
        exact Nat.le_trans (by decide : (4 : UInt64).toNat ≤ 5) (by omega)

/-- The value of a symbolic displacement counts from the end of the instruction. -/
theorem value?_fixup {f : Machine.Fixup} {n : Nat} (h : f.offset + 4 + f.trailing = n)
    (hlen : pos + n < 2 ^ 63) :
    value? l u (fixupRelocation (UInt64.ofNat pos) f) = some (if f.isTls then l.thread f.symbol
      else l.of u f.symbol - (l.text + (pos + n : Nat))) := by
  have hoffset := toNat_offset (n := pos) (k := f.offset) (by omega)
  cases htls : f.isTls with
  | true =>
    simp only [fixupRelocation, htls, if_true, value?]
    rw [Int64.toInt_zero, Int.add_zero]
  | false =>
    have htrailing : (Int64.ofNat f.trailing).toInt = f.trailing :=
      Int64.toInt_ofNat_of_lt (by omega)
    have haddend : (-4 - Int64.ofNat f.trailing).toInt = -4 - f.trailing := by
      rw [Int64.toInt_sub, htrailing, show (-4 : Int64).toInt = -4 from rfl]
      apply Int.bmod_eq_of_le <;> omega
    simp only [fixupRelocation, htls, Bool.false_eq_true, if_false, value?, haddend, hoffset]
    refine congrArg some ?_
    omega

/-- Relocating the symbolic displacement of an encoding fills it in. -/
theorem edit_fixup {e : Machine.Encoding} {symbol? : Option (String × Bool)}
    (placed : e.Placed symbol?) (hlen : pos + e.bytes.length < 2 ^ 63) :
    ∃ w : UInt32, editFrom pos
      ((e.fixup.map (fixupRelocation (UInt64.ofNat pos))).toList.map (fieldEdit l u)) e.bytes =
        e.filled w ∧ (AllFit l u (e.fixup.map (fixupRelocation (UInt64.ofNat pos))).toList →
          ∀ f ∈ e.fixup, w.toInt32.toInt = if f.isTls then l.thread f.symbol
            else l.of u f.symbol - (l.text + (pos + e.bytes.length : Nat))) := by
  cases hf : e.fixup with
  | none => exact ⟨0, by simp [Machine.Encoding.filled, hf, editFrom], by simp⟩
  | some f =>
    have hends := placed.ends f hf
    have hvalue := value?_fixup (l := l) (u := u) hends hlen
    have hoffset : (fixupRelocation (UInt64.ofNat pos) f).offset.toNat = pos + f.offset := by
      unfold fixupRelocation
      split <;> exact toNat_offset (by omega)
    refine ⟨(Int32.ofInt (if f.isTls then l.thread f.symbol
      else l.of u f.symbol - (l.text + (pos + e.bytes.length : Nat)))).toUInt32, ?_,
      fun hfits g hg => ?_⟩
    · simp only [Option.map_some, Option.toList, List.map_cons, List.map_nil, editFrom,
        List.foldl_cons, List.foldl_nil, fieldEdit, hvalue, Option.getD_some, hoffset,
        Nat.add_sub_cancel_left, Machine.Encoding.filled, hf]
      rfl
    · obtain rfl := Option.some.inj hg
      exact toInt_ofInt (hfits _ (List.mem_singleton_self _) _ hvalue)

theorem length_filled (e : Machine.Encoding) (w : UInt32) :
    (e.filled w).length = e.bytes.length := by
  unfold Machine.Encoding.filled
  split
  · rfl
  · exact length_overwrite _ _ _

/-- An instruction whose bytes were known, with its symbolic displacement relocated. -/
theorem plain_settled {inst : Inst} {e : Machine.Encoding} (encoded : inst.encode = .ok e)
    (hlen : pos + e.bytes.length < 2 ^ 63) :
    ∃ d, OperandsSettled l u pos inst
      (editFrom pos ((e.fixup.map (fixupRelocation (UInt64.ofNat pos))).toList.map (fieldEdit l u))
        e.bytes) (e.fixup.map (fixupRelocation (UInt64.ofNat pos))).toList e d := by
  obtain ⟨symbol?, placed⟩ := Machine.PlacesFixup.inst _ _ encoded
  obtain ⟨w, hw, hvalues⟩ := edit_fixup (l := l) (u := u) placed hlen
  have hlength := length_filled e w
  rw [hw]
  refine ⟨w.toInt32.toInt, encoded, hlength, ?_, fun hfits f hf htls => ?_,
    fun hfits f hf htls => ?_, fun f cond dst src src2 hinst ht => ?_⟩
  · have hsymbol : ∀ f, (fixupRelocation (UInt64.ofNat pos) f).symbol = f.symbol := by
      intro f
      unfold fixupRelocation
      split <;> rfl
    cases e.fixup with
    | none => rfl
    | some f => simp [hsymbol]
  · have hvalue := hvalues hfits f hf
    rw [htls] at hvalue
    simp only [Bool.false_eq_true, if_false] at hvalue
    rw [hvalue, hlength]
    push_cast
    omega
  · have hvalue := hvalues hfits f hf
    rwa [htls, if_pos rfl] at hvalue
  · subst hinst
    have hdecodes := Machine.decodesTo_encode ht encoded
    exact ⟨hdecodes.placed.symbol, hdecodes.decode w⟩

/-- Every instruction that the first phase laid down is settled once it is filled in and
relocated. -/
theorem Item.settled {inst : Inst} {chunk : List UInt8} {rels : List Relocation}
    {pends : List PendingBranch} (h : Item u pos inst chunk rels pends)
    (hlen : pos + chunk.length < 2 ^ 63)
    (hin : ∀ name value, u.textOffset? name = some value → value.toNat < 2 ^ 63)
    (hdisp : ∀ p ∈ pends, fitsInt32 (p.disp u) = true) :
    Settled l u pos inst (editFrom pos (allEdits l plt u rels pends) chunk)
      (allRelocs plt u rels pends) := by
  cases h with
  | label offset => exact ⟨rfl, rfl, offset⟩
  | @short op cond dst src src2 target value bytes branch offset encoded =>
    obtain ⟨hlength, hfits8, hdecode⟩ :=
      Machine.decode_short (Machine.isBranch_of_target branch) encoded
    have hrange := Machine.fitsInt8_iff.mp hfits8
    have hdisp : (value.toInt64 - (UInt64.ofNat pos).toInt64 - 2).toInt =
        (value.toNat : Int) - (pos + chunk.length) := by
      have hsmall := distance_less (hin _ _ offset) (by omega : pos < 2 ^ 63) (k := 2) (by omega)
        (Int.lt_of_le_of_lt hrange.2 (by omega))
      rw [hlength.1]
      exact hsmall
    simp only [Settled, branch]
    exact branchSettled_text offset (.inr hlength) hdisp hdecode
  | @long op cond dst src src2 target value bytes branch offset encoded =>
    have hop := Machine.isBranch_of_target branch
    have hsize := Machine.length_longOpcode hop cond
    have hbounds := longSize_bounds op
    rw [Machine.encodeLong_eq hop] at encoded
    split at encoded
    · rename_i hfits32
      obtain rfl := Except.ok.inj encoded
      rw [List.length_append, Machine.length_le32, hsize] at hlen
      have hrange := Machine.fitsInt32_iff.mp hfits32
      have hdisp := distance_less (hin _ _ offset) (by omega : pos < 2 ^ 63) (k := longSize op)
        (by omega) (Int.lt_of_le_of_lt hrange.2 (by omega))
      simp only [Settled, branch]
      exact branchSettled_long hop offset hfits32 hdisp
    · simp at encoded
  | @reserved op cond dst src src2 target line branch =>
    rw [List.length_replicate] at hlen
    simp only [Settled, branch, allRelocs, allEdits, List.nil_append, List.flatMap_cons,
      List.flatMap_nil, List.append_nil, List.map_cons, List.map_nil]
    exact reserved_settled (Machine.isBranch_of_target branch) hlen hin rfl
      (hdisp _ List.mem_cons_self)
  | @plain op cond dst src src2 e branch encoded =>
    simp only [Settled, branch, allRelocs, allEdits, List.flatMap_nil, List.append_nil,
      List.map_nil, List.nil_append]
    exact ⟨e, plain_settled encoded hlen⟩

end

/-! ## What linking makes of a list of instructions -/

theorem external_within {plt : Bool} {u : CodeUnit} {pos n : Nat} {p : PendingBranch}
    (h : p.Inside pos n) (hlen : pos + n < 2 ^ 63) :
    ∀ r ∈ p.external plt u, Within pos n r := by
  obtain ⟨-, hlow, hhigh⟩ := h
  have hbounds := longSize_bounds p.op
  have hend : (p.pos + UInt64.ofNat (longSize p.op)).toNat = p.pos.toNat + longSize p.op := by
    rw [UInt64.toNat_add, UInt64.toNat_ofNat']
    omega
  have hplace : (p.pos + UInt64.ofNat (longSize p.op) - 4).toNat =
      p.pos.toNat + longSize p.op - 4 := by
    rw [UInt64.toNat_sub_of_le, hend]
    · rfl
    · rw [UInt64.le_iff_toNat_le, hend]
      exact Nat.le_trans (by decide : (4 : UInt64).toNat ≤ 5) (by omega)
  intro r hr
  unfold PendingBranch.external at hr
  split at hr
  · simp at hr
  · obtain rfl := List.mem_singleton.mp hr
    unfold Within
    simp only [hplace]
    omega

theorem editsIn_pending {u : CodeUnit} {pos n : Nat} {pends : List PendingBranch}
    (h : ∀ p ∈ pends, p.Inside pos n) : EditsIn pos n (pends.map (PendingBranch.edit u)) := by
  intro e he
  obtain ⟨p, hp, rfl⟩ := List.mem_map.mp he
  obtain ⟨hop, hlow, hhigh⟩ := h p hp
  have hsize := Machine.length_longOpcode hop p.cond
  simp only [PendingBranch.edit, List.length_append, Machine.length_le32, hsize]
  exact ⟨hlow, hhigh⟩

theorem editsIn_fields {l : Addresses} {u : CodeUnit} {pos n : Nat} {rels : List Relocation}
    (h : ∀ r ∈ rels, Within pos n r) : EditsIn pos n (rels.map (fieldEdit l u)) := by
  intro e he
  obtain ⟨r, hr, rfl⟩ := List.mem_map.mp he
  exact h r hr

theorem editsIn_external {l : Addresses} {plt : Bool} {u : CodeUnit} {pos n : Nat}
    {pends : List PendingBranch} (h : ∀ p ∈ pends, p.Inside pos n) (hlen : pos + n < 2 ^ 63) :
    EditsIn pos n ((pends.flatMap (PendingBranch.external plt u)).map (fieldEdit l u)) := by
  apply editsIn_fields
  intro r hr
  obtain ⟨p, hp, hr⟩ := List.mem_flatMap.mp hr
  exact external_within (h p hp) hlen r hr

/-- The relocations of the first instruction and those of the others. -/
theorem allRelocs_append (plt : Bool) (u : CodeUnit) (rels rels' : List Relocation)
    (pends pends' : List PendingBranch) :
    (allRelocs plt u rels pends ++ allRelocs plt u rels' pends').Perm
      (allRelocs plt u (rels ++ rels') (pends ++ pends')) := by
  simp only [allRelocs, List.flatMap_append, List.append_assoc]
  refine List.Perm.append_left rels ?_
  exact List.perm_append_comm_assoc _ _ _

/-- The edits of the first instruction do not meet those of the others. -/
theorem editFrom_allEdits {l : Addresses} {plt : Bool} {u : CodeUnit} {pos : Nat}
    {chunk text : List UInt8} {rels rels' : List Relocation} {pends pends' : List PendingBranch}
    (hrels : ∀ r ∈ rels, Within pos chunk.length r)
    (hpends : ∀ p ∈ pends, p.Inside pos chunk.length)
    (hrels' : ∀ r ∈ rels', Within (pos + chunk.length) text.length r)
    (hpends' : ∀ p ∈ pends', p.Inside (pos + chunk.length) text.length)
    (hlen : pos + chunk.length + text.length < 2 ^ 63) :
    editFrom pos (allEdits l plt u (rels ++ rels') (pends ++ pends')) (chunk ++ text) =
      editFrom pos (allEdits l plt u rels pends) chunk ++
        editFrom (pos + chunk.length) (allEdits l plt u rels' pends') text := by
  have hblocks := editFrom_blocks
    [(pends.map (PendingBranch.edit u), pends'.map (PendingBranch.edit u)),
      (rels.map (fieldEdit l u), rels'.map (fieldEdit l u)),
      ((pends.flatMap (PendingBranch.external plt u)).map (fieldEdit l u),
        (pends'.flatMap (PendingBranch.external plt u)).map (fieldEdit l u))]
    (by
      simp only [List.mem_cons, List.not_mem_nil, or_false, forall_eq_or_imp, forall_eq]
      exact ⟨⟨editsIn_pending hpends, editsIn_pending hpends'⟩,
        ⟨editsIn_fields hrels, editsIn_fields hrels'⟩,
        editsIn_external hpends (by omega), editsIn_external hpends' hlen⟩) text
  simpa [allEdits, allRelocs] using hblocks

theorem allRelocs_within {plt : Bool} {u : CodeUnit} {pos n : Nat} {rels : List Relocation}
    {pends : List PendingBranch} (hrels : ∀ r ∈ rels, Within pos n r)
    (hpends : ∀ p ∈ pends, p.Inside pos n) (hlen : pos + n < 2 ^ 63) :
    ∀ r ∈ allRelocs plt u rels pends, Within pos n r := by
  intro r hr
  rcases List.mem_append.mp hr with hr | hr
  · exact hrels r hr
  · obtain ⟨p, hp, hr⟩ := List.mem_flatMap.mp hr
    exact external_within (hpends p hp) hlen r hr

/-- Everything that the first phase laid down is settled once it is filled in and relocated. -/
theorem Draft.laid {l : Addresses} {plt : Bool} {u : CodeUnit} {pos : Nat} {insts : List Inst}
    {text : List UInt8} {rels : List Relocation} {pends : List PendingBranch}
    (h : Draft u pos insts text rels pends) (hlen : pos + text.length < 2 ^ 63)
    (hin : ∀ name value, u.textOffset? name = some value → value.toNat < 2 ^ 63)
    (hdisp : ∀ p ∈ pends, fitsInt32 (p.disp u) = true) :
    ∃ relocs, relocs.Perm (allRelocs plt u rels pends) ∧
      Laid l u pos insts (editFrom pos (allEdits l plt u rels pends) text) relocs := by
  induction h with
  | nil pos => exact ⟨[], .refl _, .nil pos⟩
  | @cons pos inst insts chunk text rels rels' pends pends' item rest ih =>
    rw [List.length_append] at hlen
    have hperm := allRelocs_append plt u rels rels' pends pends'
    obtain ⟨hrels, hpends⟩ := item.inside (by omega)
    obtain ⟨hrels', hpends'⟩ := rest.inside (by omega)
    have hedits : editFrom pos (allEdits l plt u (rels ++ rels') (pends ++ pends')) _ = _ :=
      editFrom_allEdits hrels hpends hrels' hpends' (by omega)
    have hsettled : Settled l u pos inst _ (allRelocs plt u rels pends) :=
      item.settled (by omega) hin fun p hp => hdisp p (List.mem_append_left _ hp)
    obtain ⟨relocs, hrelocs, hlaid⟩ := ih (by omega)
      fun p hp => hdisp p (List.mem_append_right _ hp)
    have hlength := length_editFrom pos (allEdits l plt u rels pends) chunk
    refine ⟨_, (hrelocs.append_left _).trans hperm, ?_⟩
    rw [hedits]
    refine .cons hsettled ?_ ?_
    · rw [hlength]
      exact allRelocs_within hrels hpends (by omega)
    · rw [hlength]
      exact hlaid

/-- Two fields of four bytes do not overlap. -/
def Disjoint (r s : Relocation) : Prop :=
  r.offset.toNat + 4 ≤ s.offset.toNat ∨ s.offset.toNat + 4 ≤ r.offset.toNat

/-- An instruction has at most one relocation. -/
theorem Item.length_allRelocs {u : CodeUnit} {pos : Nat} {inst : Inst} {chunk : List UInt8}
    {rels : List Relocation} {pends : List PendingBranch} (h : Item u pos inst chunk rels pends)
    (plt : Bool) : (allRelocs plt u rels pends).length ≤ 1 := by
  have hoption : ∀ o : Option Relocation, o.toList.length ≤ 1 := by
    intro o
    cases o <;> simp
  cases h with
  | label offset => simp [allRelocs]
  | short branch offset encoded => simp [allRelocs]
  | long branch offset encoded => simp [allRelocs]
  | reserved line branch =>
    simp only [allRelocs, List.nil_append, List.flatMap_cons, List.flatMap_nil, List.append_nil,
      PendingBranch.external]
    split <;> simp
  | plain branch encoded =>
    simp only [allRelocs, List.flatMap_nil, List.append_nil]
    exact hoption _

/-- The fields of relocations do not overlap. -/
theorem Draft.disjoint {u : CodeUnit} {pos : Nat} {insts : List Inst} {text : List UInt8}
    {rels : List Relocation} {pends : List PendingBranch} (h : Draft u pos insts text rels pends)
    (hlen : pos + text.length < 2 ^ 63) (plt : Bool) :
    (allRelocs plt u rels pends).Pairwise Disjoint := by
  induction h with
  | nil pos => exact .nil
  | @cons pos inst insts chunk text rels rels' pends pends' item rest ih =>
    rw [List.length_append] at hlen
    have hperm := allRelocs_append plt u rels rels' pends pends'
    obtain ⟨hrels, hpends⟩ := item.inside (by omega)
    obtain ⟨hrels', hpends'⟩ := rest.inside (by omega)
    have hmine : ∀ r ∈ allRelocs plt u rels pends, Within pos chunk.length r :=
      allRelocs_within hrels hpends (by omega)
    have hothers : ∀ r ∈ allRelocs plt u rels' pends', Within (pos + chunk.length) text.length r :=
      allRelocs_within hrels' hpends' (by omega)
    have hone := item.length_allRelocs plt
    refine hperm.pairwise (List.pairwise_append.mpr ⟨?_, ih (by omega), fun r hr s hs => ?_⟩)
      fun h => h.symm
    · match allRelocs plt u rels pends, hone with
      | [], _ => exact .nil
      | [r], _ => exact List.pairwise_singleton _ _
    · have hr := (hmine r hr).2
      have hs := (hothers s hs).1
      exact .inl (by omega)

/-- Every relocation is of a field of four bytes. -/
theorem Draft.value?_isSome {l : Addresses} {plt : Bool} {u : CodeUnit} {pos : Nat}
    {insts : List Inst} {text : List UInt8} {rels : List Relocation} {pends : List PendingBranch}
    (h : Draft u pos insts text rels pends) :
    ∀ r ∈ allRelocs plt u rels pends, (value? l u r).isSome := by
  have hfixup : ∀ pos f, (value? l u (fixupRelocation pos f)).isSome := by
    intro pos f
    unfold fixupRelocation
    split <;> rfl
  have hexternal : ∀ p, ∀ r ∈ PendingBranch.external plt u p, (value? l u r).isSome := by
    intro p r hr
    unfold PendingBranch.external at hr
    split at hr
    · simp at hr
    · obtain rfl := List.mem_singleton.mp hr
      rw [value?_relative l u (by simp only; split <;> simp)]
      rfl
  have hrels : ∀ r ∈ rels, (value? l u r).isSome := by
    induction h with
    | nil pos => simp
    | cons item rest ih =>
      intro r hr
      rcases List.mem_append.mp hr with hr | hr
      · cases item with
        | label offset | short branch offset encoded | long branch offset encoded => simp at hr
        | reserved line branch => simp at hr
        | plain branch encoded =>
          rw [Option.mem_toList, Option.map_eq_some_iff] at hr
          obtain ⟨f, -, rfl⟩ := hr
          exact hfixup _ f
      · exact ih r hr
  intro r hr
  rcases List.mem_append.mp hr with hr | hr
  · exact hrels r hr
  · obtain ⟨p, -, hr⟩ := List.mem_flatMap.mp hr
    exact hexternal p r hr

/-- Reserved branches belong to instructions. -/
theorem Draft.pending {u : CodeUnit} {pos : Nat} {insts : List Inst} {text : List UInt8}
    {rels : List Relocation} {pends : List PendingBranch}
    (h : Draft u pos insts text rels pends) :
    ∀ p ∈ pends, p.inst ∈ insts ∧ p.inst.branchTarget? = some p.target := by
  induction h with
  | nil pos => simp
  | @cons pos inst insts chunk text rels rels' pends pends' item rest ih =>
    intro p hp
    rcases List.mem_append.mp hp with hp | hp
    · cases item with
      | label offset | short branch offset encoded | long branch offset encoded => simp at hp
      | plain branch encoded => simp at hp
      | reserved line branch =>
        obtain rfl := List.mem_singleton.mp hp
        exact ⟨List.mem_cons_self, branch⟩
    · obtain ⟨hmem, htarget⟩ := ih p hp
      exact ⟨List.mem_cons_of_mem _ hmem, htarget⟩

/-- Linking makes the edits of the relocations. -/
theorem relocate_all {l : Addresses} {u : CodeUnit} {rels : List Relocation}
    (hsome : ∀ r ∈ rels, (value? l u r).isSome) (text : List UInt8) :
    rels.foldl (relocate l u) text = editFrom 0 (rels.map (fieldEdit l u)) text := by
  induction rels generalizing text with
  | nil => rfl
  | cons r rels ih =>
    obtain ⟨x, hx⟩ := Option.isSome_iff_exists.mp (hsome r List.mem_cons_self)
    have hstep : relocate l u text r = overwrite text r.offset.toNat (field x) := by
      simp only [relocate, hx]
    have hedit : fieldEdit l u r = (r.offset.toNat, field x) := by
      simp only [fieldEdit, hx, Option.getD_some]
    rw [List.foldl_cons, hstep, ih fun s hs => hsome s (List.mem_cons_of_mem _ hs), List.map_cons,
      hedit]
    rfl

end Backend.Assembler
