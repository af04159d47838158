-- The listing of an assembled unit. The first phase adds a line for each instruction, without bytes
-- if it is a reserved branch; the second fills in the bytes of a line by its index and overwrites
-- the text by its offset. In the end the lines hold the bytes of the text, one instruction after
-- the other.
import Backend.Proofs.Assembler.Resolution

namespace Backend

namespace CodeUnit

theorem define_listing {u v : CodeUnit} {name : String} {kind : SymbolKind} {binding : Binding}
    {sec : Section} {value : UInt64} (h : u.define name kind binding sec value = .ok v) :
    v.lines = u.lines ∧ v.listing = u.listing := by
  obtain ⟨rfl, -⟩ := define_ok h
  unfold reference
  split <;> exact ⟨rfl, rfl⟩

theorem addRelocation_listing (u : CodeUnit) (r : Relocation) :
    (u.addRelocation r).lines = u.lines ∧ (u.addRelocation r).listing = u.listing := by
  unfold addRelocation reference
  split <;> exact ⟨rfl, rfl⟩

end CodeUnit

namespace Assembler

open CodeUnit (Line)
open Machine (Inst Target longSize)

/-! ## Lines of instructions -/

/-- The bytes are an encoding of the instruction, whatever displacement a branch has. -/
inductive Encodes : Inst → List UInt8 → Prop where
  | plain {inst : Inst} {e : Machine.Encoding} (branch : inst.branchTarget? = none)
      (encoded : inst.encode = .ok e) : Encodes inst e.bytes
  | short {op : Machine.Op} {cond : Machine.Cond} {dst src src2 : Option Machine.Operand}
      {target : Target} {disp : Int64} {bytes : List UInt8}
      (branch : (Inst.op op cond dst src src2).branchTarget? = some target)
      (encoded : Machine.encodeShort op cond disp = .ok bytes) :
      Encodes (.op op cond dst src src2) bytes
  | long {op : Machine.Op} {cond : Machine.Cond} {dst src src2 : Option Machine.Operand}
      {target : Target} {disp : Int64} {bytes : List UInt8}
      (branch : (Inst.op op cond dst src src2).branchTarget? = some target)
      (encoded : Machine.encodeLong op cond disp = .ok bytes) :
      Encodes (.op op cond dst src src2) bytes

/-- The line of an instruction: a label with its name, no bytes and the offset that its symbol has;
any other instruction with its text and its bytes. -/
inductive Shows (u : CodeUnit) : Inst → Line → Prop where
  | label {name : String} {kind : CodeUnit.SymbolKind} {binding : CodeUnit.Binding}
      {offset : UInt64} (defined : u.textOffset? name = some offset) :
      Shows u (.label name kind binding) ⟨offset, [], "", name⟩
  | op {op : Machine.Op} {cond : Machine.Cond} {dst src src2 : Option Machine.Operand}
      {offset : UInt64} {bytes : List UInt8} (encodes : Encodes (.op op cond dst src src2) bytes) :
      Shows u (.op op cond dst src src2) ⟨offset, bytes, (Inst.op op cond dst src src2).text, ""⟩

theorem Shows.grows {u v : CodeUnit} {inst : Inst} {line : Line} (h : Shows u inst line)
    (hg : Grows u v) : Shows v inst line := by
  cases h with
  | label defined => exact .label (hg _ _ defined)
  | op encodes => exact .op encodes

/-- The lines of instructions that stand one after the other from an offset on. -/
inductive Listed (u : CodeUnit) : Nat → List Inst → List Line → Prop where
  | nil (pos : Nat) : Listed u pos [] []
  | cons {pos : Nat} {inst : Inst} {insts : List Inst} {line : Line} {lines : List Line}
      (head : Shows u inst line) (offset : line.offset = UInt64.ofNat pos)
      (rest : Listed u (pos + line.bytes.length) insts lines) :
      Listed u pos (inst :: insts) (line :: lines)

theorem Listed.lines {u : CodeUnit} {pos : Nat} {insts : List Inst} {lines : List Line}
    (h : Listed u pos insts lines) : List.Forall₂ (Shows u) insts lines := by
  induction h with
  | nil pos => exact .nil
  | cons head offset rest ih => exact .cons head ih

theorem Listed.offset {u : CodeUnit} {pos : Nat} {insts : List Inst} {before after : List Line}
    {line : Line} (h : Listed u pos insts (before ++ line :: after)) :
    line.offset = UInt64.ofNat (pos + (before.flatMap Line.bytes).length) := by
  induction before generalizing pos insts with
  | nil =>
    cases h with
    | cons head offset rest => exact offset
  | cons first before ih =>
    cases h with
    | cons head offset rest =>
      rw [ih rest, List.flatMap_cons, List.length_append, Nat.add_assoc]

/-! ## First phase -/

/-- What the first phase records for an instruction at an offset whose line has this index: the
bytes in the text, the line, and a branch whose line has no bytes yet. -/
inductive Recorded (u : CodeUnit) (pos index : Nat) :
    Inst → List UInt8 → Line → List PendingBranch → Prop where
  | known {inst : Inst} {line : Line} (head : Shows u inst line)
      (offset : line.offset = UInt64.ofNat pos) : Recorded u pos index inst line.bytes line []
  | reserved {op : Machine.Op} {cond : Machine.Cond} {dst src src2 : Option Machine.Operand}
      {target : Target} (branch : (Inst.op op cond dst src src2).branchTarget? = some target) :
      Recorded u pos index (.op op cond dst src src2) (List.replicate (longSize op) 0)
        ⟨UInt64.ofNat pos, [], (Inst.op op cond dst src src2).text, ""⟩
        [⟨op, cond, target, .op op cond dst src src2, UInt64.ofNat pos, some index⟩]

/-- What the first phase records for instructions from an offset and an index on. -/
inductive RecordedAll (u : CodeUnit) :
    Nat → Nat → List Inst → List UInt8 → List Line → List PendingBranch → Prop where
  | nil (pos index : Nat) : RecordedAll u pos index [] [] [] []
  | cons {pos index : Nat} {inst : Inst} {insts : List Inst} {chunk text : List UInt8} {line : Line}
      {lines : List Line} {pends pends' : List PendingBranch}
      (head : Recorded u pos index inst chunk line pends)
      (rest : RecordedAll u (pos + chunk.length) (index + 1) insts text lines pends') :
      RecordedAll u pos index (inst :: insts) (chunk ++ text) (line :: lines) (pends ++ pends')

theorem Recorded.grows {u v : CodeUnit} {pos index : Nat} {inst : Inst} {chunk : List UInt8}
    {line : Line} {pends : List PendingBranch} (h : Recorded u pos index inst chunk line pends)
    (hg : Grows u v) : Recorded v pos index inst chunk line pends := by
  cases h with
  | known head offset => exact .known (head.grows hg) offset
  | reserved branch => exact .reserved branch

/-- The second assembler has this text, these lines and these reserved branches more than the
first, and keeps a listing. -/
structure Lists (a b : Assembler) (text : List UInt8) (lines : List Line)
    (pends : List PendingBranch) : Prop where
  text : b.unit.text = a.unit.text ++ text
  lines : b.unit.lines = a.unit.lines ++ lines
  pending : b.pending = a.pending ++ pends
  listing : b.unit.listing = true

theorem Lists.trans {a b c : Assembler} {s t : List UInt8} {l l' : List Line}
    {pends pends' : List PendingBranch} (h : Lists a b s l pends) (h' : Lists b c t l' pends') :
    Lists a c (s ++ t) (l ++ l') (pends ++ pends') := by
  refine ⟨?_, ?_, ?_, h'.listing⟩
  · rw [h'.text, h.text, List.append_assoc]
  · rw [h'.lines, h.lines, List.append_assoc]
  · rw [h'.pending, h.pending, List.append_assoc]

section Steps

variable {a b : Assembler} (listing : a.unit.listing = true)

include listing

theorem withLine_eq (l : Line) {u : CodeUnit} (hu : u.listing = a.unit.listing) :
    withLine u l = u.addLine l := if_pos (hu.trans listing)

/-- Bytes that are known and their line. -/
theorem lists_emitLine (inst : Inst) (bytes : List UInt8) :
    Lists a { a with unit := emitLine a.unit inst bytes } bytes
      [⟨a.unit.offset, bytes, inst.text, ""⟩] [] := by
  have hunit : emitLine a.unit inst bytes =
      (a.unit.emit bytes).addLine ⟨a.unit.offset, bytes, inst.text, ""⟩ :=
    withLine_eq listing _ rfl
  rw [hunit]
  exact ⟨rfl, rfl, (List.append_nil _).symm, listing⟩

theorem recorded_label {name : String} {kind : CodeUnit.SymbolKind} {binding : CodeUnit.Binding}
    {u : CodeUnit} (hu : a.unit.define name kind binding .text a.unit.offset = .ok u) :
    Lists a { a with unit := withLine u ⟨u.offset, [], "", name⟩ } []
        [⟨u.offset, [], "", name⟩] [] ∧
      Recorded (withLine u ⟨u.offset, [], "", name⟩) a.unit.text.length a.unit.lines.length
        (.label name kind binding) [] ⟨u.offset, [], "", name⟩ [] := by
  obtain ⟨htext, -⟩ := CodeUnit.define_fields hu
  obtain ⟨hlines, hlisting⟩ := CodeUnit.define_listing hu
  have hoffset : u.offset = a.unit.offset := by
    unfold CodeUnit.offset
    rw [htext]
  have hdefined : (withLine u ⟨u.offset, [], "", name⟩).textOffset? name = some u.offset := by
    rw [CodeUnit.textOffset?_congr (withLine_fields _ _).2.2, CodeUnit.textOffset?_define hu,
      if_pos rfl, hoffset]
  refine ⟨?_, .known (.label hdefined) hoffset⟩
  rw [withLine_eq listing _ hlisting]
  refine ⟨?_, ?_, (List.append_nil _).symm, hlisting.trans listing⟩
  · rw [List.append_nil]
    exact htext
  · exact congrArg (· ++ _) hlines

theorem recorded_assemble {inst : Inst} (h : a.assemble inst = .ok b) :
    ∃ chunk line pends, Lists a b chunk [line] pends ∧
      Recorded b.unit a.unit.text.length a.unit.lines.length inst chunk line pends := by
  cases assembled_of_ok h with
  | label defined => exact ⟨_, _, _, recorded_label listing defined⟩
  | short branch _ encoded =>
    exact ⟨_, _, [], lists_emitLine listing _ _, .known (.op (.short branch encoded)) rfl⟩
  | long branch _ encoded =>
    exact ⟨_, _, [], lists_emitLine listing _ _, .known (.op (.long branch encoded)) rfl⟩
  | reserved branch =>
    unfold reserved
    rw [if_pos listing, withLine_eq listing _ (by rfl)]
    exact ⟨_, _, _, ⟨rfl, rfl, rfl, listing⟩, .reserved branch⟩
  | @plain op cond dst src src2 e branch encoded =>
    have hline := lists_emitLine listing (.op op cond dst src src2) e.bytes
    refine ⟨_, _, [], ?_, .known (.op (.plain branch encoded)) rfl⟩
    unfold emitted
    cases e.fixup with
    | none => exact hline
    | some f =>
      obtain ⟨htext, -⟩ := CodeUnit.addRelocation_fields
        (emitLine a.unit (.op op cond dst src src2) e.bytes) (fixupRelocation a.unit.offset f)
      obtain ⟨hlines, hlisting⟩ := CodeUnit.addRelocation_listing
        (emitLine a.unit (.op op cond dst src src2) e.bytes) (fixupRelocation a.unit.offset f)
      exact ⟨htext.trans hline.text, hlines.trans hline.lines, hline.pending,
        hlisting.trans hline.listing⟩

theorem recorded_assembleAll {insts : List Inst} (h : a.assembleAll insts = .ok b) :
    ∃ text lines pends, Lists a b text lines pends ∧
      RecordedAll b.unit a.unit.text.length a.unit.lines.length insts text lines pends := by
  induction insts generalizing a with
  | nil =>
    obtain rfl := Except.ok.inj h
    exact ⟨[], [], [], ⟨(List.append_nil _).symm, (List.append_nil _).symm,
      (List.append_nil _).symm, listing⟩, .nil _ _⟩
  | cons inst insts ih =>
    obtain ⟨c, hc, h⟩ := assembleAll_cons_eq_ok.mp h
    obtain ⟨chunk, line, pends, hstep, hhead⟩ := recorded_assemble listing hc
    obtain ⟨text, lines, pends', hrest, hall⟩ := ih hstep.listing h
    obtain ⟨_, _, _, hextends, -⟩ := assembleAll_draft h
    rw [hstep.text, hstep.lines, List.length_append, List.length_append] at hall
    exact ⟨_, _, _, hstep.trans hrest, .cons (hhead.grows hextends.grows) hall⟩

end Steps

/-- Calls one after the other assemble their instructions one after the other. -/
theorem assembleAll_flatten (a : Assembler) (calls : List (List Inst)) :
    calls.foldlM assembleAll a = a.assembleAll calls.flatten := by
  induction calls generalizing a with
  | nil => rfl
  | cons insts calls ih =>
    have hstep : ∀ b : Assembler, calls.foldlM assembleAll b = calls.flatten.foldlM assemble b := ih
    rw [List.flatten_cons, assembleAll, List.foldlM_append, List.foldlM_cons]
    simp only [hstep]
    rfl

/-! ## Second phase -/

/-- A branch is filled in in the text and in its line. -/
theorem filled_fields (plt : Bool) (u : CodeUnit) {p : PendingBranch} {index : Nat}
    (h : p.line = some index) :
    (filled plt u p).text = overwrite u.text p.pos.toNat (p.edit u).2 ∧
      (filled plt u p).lines = u.lines.modify index fun l => { l with bytes := (p.edit u).2 } := by
  refine ⟨(filled_spec plt u p).text, ?_⟩
  have hindex : ¬((index : Int) < 0) := by omega
  simp only [filled, h]
  split
  · simp only [CodeUnit.setLineBytes, hindex, if_false]
    rfl
  · rw [(CodeUnit.addRelocation_listing _ _).1]
    simp only [CodeUnit.setLineBytes, hindex, if_false]
    rfl

/-- A branch is resolved only by filling it in with its long form. -/
theorem filled_of_resolve {plt : Bool} {u v : CodeUnit} {p : PendingBranch}
    (hlen : u.text.length < 2 ^ 63) (hp : p.Inside 0 u.text.length)
    (h : resolve plt u p = .ok v) :
    v = filled plt u p ∧ Machine.encodeLong p.op p.cond (p.disp u) = .ok (p.edit u).2 := by
  rw [resolve_eq plt hlen hp] at h
  split at h
  · cases h
  · split at h
    · rename_i hfits
      refine ⟨(Except.ok.inj h).symm, ?_⟩
      rw [Machine.encodeLong_eq hp.1, if_pos hfits]
      rfl
    · cases h

/-- Behind the text `before` and the lines `shown`, the second unit has the text of these lines of
instructions. It is the first with its reserved branches filled in. -/
structure Completed (w u v : CodeUnit) (pos : Nat) (insts : List Inst) (before : List UInt8)
    (shown added : List Line) : Prop where
  text : v.text = before ++ added.flatMap Line.bytes
  lines : v.lines = shown ++ added
  listed : Listed w pos insts added
  length : v.text.length = u.text.length
  offsets : v.textOffset? = u.textOffset?

/-- Filling in the reserved branches gives their lines the bytes that the text gets. -/
theorem listed_of_resolveAll {plt : Bool} {w u v : CodeUnit} {pos index : Nat} {insts : List Inst}
    {text before : List UInt8} {lines shown : List Line} {pends : List PendingBranch}
    (h : RecordedAll w pos index insts text lines pends) (hlen : u.text.length < 2 ^ 63)
    (htext : u.text = before ++ text) (hpos : before.length = pos)
    (hlines : u.lines = shown ++ lines) (hindex : shown.length = index)
    (hv : resolveAll plt u pends = (v, none)) :
    ∃ lines', Completed w u v pos insts before shown lines' := by
  induction h generalizing u before shown with
  | nil pos index =>
    obtain rfl : u = v := congrArg Prod.fst hv
    exact ⟨[], htext, hlines, .nil pos, rfl, rfl⟩
  | @cons pos index inst insts chunk text line lines pends pends' head rest ih =>
    -- Once the first line has the bytes that the text has, the rest follows behind it.
    have hnext : ∀ {u' : CodeUnit} (line' : Line), u'.text = before ++ line'.bytes ++ text →
        line'.bytes.length = chunk.length → u'.lines = shown ++ line' :: lines →
        u'.textOffset? = u.textOffset? → Shows w inst line' → line'.offset = UInt64.ofNat pos →
        resolveAll plt u' pends' = (v, none) →
        ∃ lines', Completed w u v pos (inst :: insts) before shown lines' := by
      intro u' line' htext' hsize hlines' hoffsets hshows hoffset hv'
      have hsame : u'.text.length = u.text.length := by simp [htext', htext, hsize]
      have hpos' : (before ++ line'.bytes).length = pos + chunk.length := by
        rw [List.length_append, hsize, hpos]
      have hshown : u'.lines = (shown ++ [line']) ++ lines := by
        rw [hlines', List.append_assoc]
        rfl
      obtain ⟨lines', done⟩ :=
        ih (hsame.trans_lt hlen) htext' hpos' hshown (by simp [hindex]) hv'
      refine ⟨line' :: lines', ?_, ?_, .cons hshows hoffset ?_, done.length.trans hsame,
        done.offsets.trans hoffsets⟩
      · rw [done.text, List.flatMap_cons, List.append_assoc]
      · rw [done.lines, List.append_assoc]
        rfl
      · rw [hsize]
        exact done.listed
    cases head with
    | known head offset =>
      exact hnext _ (by rw [htext, List.append_assoc]) rfl hlines rfl head offset hv
    | @reserved op cond dst src src2 target branch =>
      have hop := Machine.isBranch_of_target branch
      have hsize : u.text.length = before.length + (longSize op + text.length) := by simp [htext]
      have hplace : (UInt64.ofNat pos).toNat = before.length := by
        rw [← hpos]
        exact toNat_ofNat_pos (by omega)
      let p : PendingBranch :=
        ⟨op, cond, target, .op op cond dst src src2, UInt64.ofNat pos, some index⟩
      have hinside : p.Inside 0 u.text.length := by
        refine ⟨hop, Nat.zero_le _, ?_⟩
        show (UInt64.ofNat pos).toNat + longSize op ≤ _
        omega
      have hbytes : (p.edit u).2.length = (List.replicate (longSize op) (0 : UInt8)).length := by
        rw [List.length_replicate, ← Machine.length_longOpcode hop cond]
        exact List.length_append
      rw [List.singleton_append, resolveAll] at hv
      split at hv
      · rename_i u' hu'
        obtain ⟨rfl, hencoded⟩ := filled_of_resolve hlen hinside hu'
        obtain ⟨hfilled, hshown⟩ := filled_fields (p := p) plt u rfl
        refine hnext ⟨UInt64.ofNat pos, (p.edit u).2, _, ""⟩ ?_ hbytes ?_
          (filled_spec plt u p).offsets (.op (.long branch hencoded)) rfl hv
        · rw [hfilled, htext, ← List.append_assoc]
          show overwrite _ (UInt64.ofNat pos).toNat _ = _
          rw [hplace]
          exact overwrite_append _ _ _ _ hbytes
        · rw [hshown, hlines, ← hindex]
          simp [List.modify_eq_set_getElem?]
      · cases hv

/-! ## Both phases -/

/-- The unit keeps a listing and has neither text nor lines. -/
structure Blank (u : CodeUnit) : Prop where
  text : u.text = []
  lines : u.lines = []
  listing : u.listing = true

/-- The listing of the unit shows the instructions and the text. Every instruction has one line, in
order; the bytes of the lines make up the text; and the offset of a line is the number of bytes of
the lines before it. -/
structure ShowsText (u : CodeUnit) (insts : List Inst) : Prop where
  lines : List.Forall₂ (Shows u) insts u.lines
  bytes : u.lines.flatMap Line.bytes = u.text
  offsets : ∀ before line after, u.lines = before ++ line :: after →
    line.offset.toNat = (before.flatMap Line.bytes).length

/-- After any calls of the first phase and the second, the listing shows the emitted bytes. -/
theorem listing_shows_emitted_bytes {u : CodeUnit} (blank : Blank u) {plt : Bool}
    {calls : List (List Inst)} {a b : Assembler}
    (h : calls.foldlM assembleAll (start u plt) = .ok a) (hlen : a.unit.text.length < 2 ^ 63)
    (hfinish : a.finish = (b, none)) : ShowsText b.unit calls.flatten := by
  rw [assembleAll_flatten] at h
  obtain ⟨text, lines, pends, hlists, hall⟩ := recorded_assembleAll blank.listing h
  have htext : a.unit.text = [] ++ text := hlists.text.trans (congrArg (· ++ text) blank.text)
  have hlines : a.unit.lines = [] ++ lines := hlists.lines.trans (congrArg (· ++ lines) blank.lines)
  have hpending : a.pending = pends := hlists.pending
  have hstart : (start u plt).unit.text.length = 0 ∧ (start u plt).unit.lines.length = 0 :=
    ⟨congrArg List.length blank.text, congrArg List.length blank.lines⟩
  rw [hstart.1, hstart.2] at hall
  unfold finish at hfinish
  split at hfinish
  · rename_i v hv
    obtain ⟨rfl, -⟩ := Prod.mk.inj hfinish
    rw [hpending] at hv
    obtain ⟨lines', done⟩ := listed_of_resolveAll hall hlen htext rfl hlines rfl hv
    obtain rfl : v.lines = lines' := done.lines
    have hgrows : Grows a.unit v := by
      intro name value hvalue
      rwa [done.offsets]
    refine ⟨done.listed.lines.imp fun _ _ hline => hline.grows hgrows, done.text.symm, ?_⟩
    intro before line after hsplit
    have hfit : (before.flatMap Line.bytes).length < 2 ^ 63 := by
      have hle : (before.flatMap Line.bytes).length ≤ v.text.length := by
        rw [done.text, hsplit]
        simp
      rw [done.length] at hle
      omega
    have hlisted := done.listed
    rw [hsplit] at hlisted
    rw [hlisted.offset, Nat.zero_add, toNat_ofNat_pos hfit]
  · cases hfinish

/-- A function with a branch to a label behind a call, assembled in two calls, with a jump back. -/
def callLoop : List (List Inst) :=
  [[.label "f" .func .glob, .op .jcc .e (some (.target ⟨"end", true⟩)) none none],
    [.unary .call (.target ⟨"puts", false⟩), .unary .jmp (.target ⟨"f", false⟩),
      .label "end" .label .loc, .plain .ret]]

theorem listing_shows_callLoop :
    ∃ a b, callLoop.foldlM assembleAll (start { CodeUnit.empty "unit" with listing := true } true) =
        .ok a ∧ a.unit.text.length < 2 ^ 63 ∧ a.finish = (b, none) ∧
      b.unit.lines.map Line.bytes =
        [[], [0x0f, 0x84, 7, 0, 0, 0], [0xe8, 0, 0, 0, 0], [0xeb, 0xf3], [], [0xc3]] ∧
      ShowsText b.unit callLoop.flatten := by
  have blank : Blank { CodeUnit.empty "unit" with listing := true } := ⟨rfl, rfl, rfl⟩
  have h : callLoop.foldlM assembleAll
      (start { CodeUnit.empty "unit" with listing := true } true) = .ok _ := rfl
  exact ⟨_, _, h, by decide, rfl, rfl, listing_shows_emitted_bytes blank h (by decide) rfl⟩

end Assembler

end Backend
