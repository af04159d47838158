-- Both phases of assembling and linking: the loaded text is that of the instructions with every
-- reference resolved, and only a missing local target or a branch that is too long stops it.
import Backend.Proofs.Assembler.Resolution

namespace Backend.Assembler

open CodeUnit (Relocation)
open Machine (Inst Target longSize fitsInt32)
open Linking

/-- The unit has no text and no relocations, and no symbol is defined in its text. It may have
data. -/
structure Fresh (u : CodeUnit) : Prop where
  text : u.text = []
  relocs : u.relocs = []
  symbols : ∀ name, u.textOffset? name = none

theorem fresh_empty (name : String) : Fresh (.empty name) := ⟨rfl, rfl, fun _ => rfl⟩

/-- What the first phase makes of a fresh unit. -/
theorem assembleAll_fresh {u : CodeUnit} (fresh : Fresh u) {plt : Bool} {insts : List Inst}
    {a : Assembler} (h : (start u plt).assembleAll insts = .ok a) :
    Draft a.unit 0 insts a.unit.text a.unit.relocs a.pending ∧ a.plt = plt ∧
      ∀ name value, a.unit.textOffset? name = some value → value.toNat ≤ a.unit.text.length := by
  obtain ⟨text, rels, pends, hextends, hdraft⟩ := assembleAll_draft h
  have htext : a.unit.text = text := by rw [hextends.text]; exact congrArg (· ++ text) fresh.text
  have hrelocs : a.unit.relocs = rels := by
    rw [hextends.relocs]
    exact congrArg (· ++ rels) fresh.relocs
  have hpending : a.pending = pends := hextends.pending
  have hstart : (start u plt).unit.text.length = 0 := congrArg List.length fresh.text
  rw [hstart] at hdraft
  rw [htext, hrelocs, hpending]
  refine ⟨hdraft, hextends.plt, fun name value hv => ?_⟩
  rw [← htext]
  refine hextends.bounded (fun name value hv => ?_) name value hv
  have hnone : (start u plt).unit.textOffset? name = none := fresh.symbols name
  rw [hnone] at hv
  simp at hv

/-- What a finished assembly is. A relocation is of a field in the text, and no two overlap. The
relocations belong to instructions, and linking gives the text of the instructions one after the
other, with every reference resolved whose relocation fits. -/
structure Resolved (u : CodeUnit) (insts : List Inst) : Prop where
  fields : ∀ r ∈ u.relocs, r.offset.toNat + 4 ≤ u.text.length ∧ ∀ l, (value? l u r).isSome
  disjoint : u.relocs.Pairwise Disjoint
  linked : ∀ l : Addresses, ∃ relocs, relocs.Perm u.relocs ∧ Laid l u 0 insts (link l u) relocs

/-- A reserved branch cannot be filled in: it goes to a local symbol that the text does not define,
or its target is too far away. -/
def Unreachable (u : CodeUnit) (p : PendingBranch) : Prop :=
  u.textOffset? p.target.name = none ∧ p.target.isLocal = true ∨
    ∃ value, u.textOffset? p.target.name = some value ∧
      ¬Fits ((value.toNat : Int) - (p.pos.toNat + longSize p.op))

/-- A draft whose branches are filled in is resolved. -/
theorem resolved_of_filled {u v : CodeUnit} {plt : Bool} {insts : List Inst}
    {pends : List PendingBranch} (hdraft : Draft u 0 insts u.text u.relocs pends)
    (hlen : u.text.length < 2 ^ 63)
    (hin : ∀ name value, u.textOffset? name = some value → value.toNat ≤ u.text.length)
    (hfilled : PendingBranch.Filled plt pends u v)
    (hdisp : ∀ p ∈ pends, fitsInt32 (p.disp u) = true) : Resolved v insts := by
  obtain ⟨hsame, hedit, hexternal⟩ := PendingBranch.congr hfilled.offsets plt
  have hgrows : Grows u v := fun name value h => by rwa [hfilled.offsets]
  have hdraft := hdraft.grows hgrows
  have hrelocs : v.relocs = allRelocs plt v u.relocs pends := by
    rw [hfilled.relocs, ← hexternal]
    rfl
  have hlen : 0 + u.text.length < 2 ^ 63 := by omega
  obtain ⟨hrels, hpends⟩ := hdraft.inside hlen
  have hsome : ∀ l, ∀ r ∈ v.relocs, (value? l v r).isSome := by
    rw [hrelocs]
    exact fun l => hdraft.value?_isSome
  have hlength : v.text.length = u.text.length := by rw [hfilled.text, length_editFrom]
  refine ⟨fun r hr => ⟨?_, fun l => hsome l r hr⟩, ?_, fun l => ?_⟩
  · rw [hrelocs] at hr
    have hwithin := (allRelocs_within hrels hpends hlen r hr).2
    omega
  · rw [hrelocs]
    exact hdraft.disjoint hlen plt
  · have hlink : link l v = editFrom 0 (allEdits l plt v u.relocs pends) u.text := by
      rw [link, relocate_all (hsome l), hrelocs, hfilled.text, ← hedit, ← editFrom_append]
      rfl
    rw [hlink, hrelocs]
    refine hdraft.laid hlen (fun name value hv => ?_) (by rwa [hsame])
    rw [hfilled.offsets] at hv
    have hle := hin name value hv
    omega

/-- A displacement that does not fit is one of a target that is too far away. -/
theorem unreachable_of_disp {u : CodeUnit} {p : PendingBranch} {n : Nat} (hn : n < 2 ^ 63)
    (hin : ∀ name value, u.textOffset? name = some value → value.toNat ≤ n)
    (hp : p.Inside 0 n) (h : fitsInt32 (p.disp u) = false) : Unreachable u p := by
  obtain ⟨-, -, hle⟩ := hp
  cases hv : u.textOffset? p.target.name with
  | none =>
    have hzero : p.disp u = 0 := by simp [PendingBranch.disp, hv]
    rw [hzero] at h
    exact absurd h (by decide)
  | some value =>
    have hvalue := hin _ _ hv
    have hend : (p.pos + UInt64.ofNat (longSize p.op)).toNat = p.pos.toNat + longSize p.op := by
      rw [UInt64.toNat_add, UInt64.toNat_ofNat']
      omega
    have hdist := Machine.toInt_distance (x := value) (y := p.pos + UInt64.ofNat (longSize p.op))
      (by omega) (by omega)
    have hdisp : p.disp u = value.toInt64 - (p.pos + UInt64.ofNat (longSize p.op)).toInt64 := by
      simp [PendingBranch.disp, hv]
    refine .inr ⟨value, hv, fun hfits => ?_⟩
    have hfits32 : fitsInt32 (p.disp u) = true := by
      rw [Machine.fitsInt32_iff, hdisp, hdist, hend]
      obtain ⟨hlow, hhigh⟩ := hfits
      omega
    rw [hfits32] at h
    simp at h

/-- Two-phase assembly of a fresh unit. If it finishes, every reference is resolved. If it does not,
some branch of the instructions goes to a local symbol that the text does not define or to one that
is too far away. -/
theorem finish_resolves {u : CodeUnit} (fresh : Fresh u) {plt : Bool} {insts : List Inst}
    {a : Assembler} (h : (start u plt).assembleAll insts = .ok a)
    (hlen : a.unit.text.length < 2 ^ 63) :
    (∀ b, a.finish = (b, none) → Resolved b.unit insts) ∧
      ∀ b e, a.finish = (b, some e) → ∃ p ∈ a.pending, p.inst ∈ insts ∧
        p.inst.branchTarget? = some p.target ∧ Unreachable a.unit p := by
  obtain ⟨hdraft, -, hin⟩ := assembleAll_fresh fresh h
  have hinside : ∀ p ∈ a.pending, p.Inside 0 a.unit.text.length :=
    (hdraft.inside (by omega)).2
  obtain ⟨hok, herror⟩ := resolveAll_spec a.plt hlen hinside
  unfold finish
  constructor
  · intro b hb
    split at hb
    · rename_i v hv
      obtain ⟨rfl, -⟩ := Prod.mk.inj hb
      obtain ⟨hfilled, hdisp⟩ := hok v hv
      exact resolved_of_filled hdraft hlen hin hfilled hdisp
    · simp at hb
  · intro b e hb
    split at hb
    · simp at hb
    · rename_i v cause hv
      obtain ⟨p, hp, hcause⟩ := herror v cause hv
      obtain ⟨hmem, htarget⟩ := hdraft.pending p hp
      refine ⟨p, hp, hmem, htarget, ?_⟩
      rcases hcause with hmissing | hdisp
      · exact .inl hmissing
      · exact unreachable_of_disp hlen hin (hinside p hp) hdisp

/-- A function with a conditional branch over a call of another unit. -/
def jumpOverCall : List Inst :=
  [.label "f" .func .glob, .op .jcc .e (some (.target ⟨"end", true⟩)) none none,
    .unary .call (.target ⟨"puts", false⟩), .label "end" .label .loc, .plain .ret]

/-- The function after the first phase. -/
def jumpOverCallDraft : Assembler where
  unit :=
    { name := "unit", text := [0, 0, 0, 0, 0, 0, 0, 0, 0, 0, 0, 0xc3], data := []
      symbols := [⟨"f", .glob, .func, .text, 0, 0, true⟩, ⟨"end", .loc, .label, .text, 11, 0, true⟩]
      relocs := [], listing := false, lines := [] }
  plt := true
  pending :=
    [⟨.jcc, .e, ⟨"end", true⟩, .op .jcc .e (some (.target ⟨"end", true⟩)) none none, 0, none⟩,
      ⟨.call, ⟨0⟩, ⟨"puts", false⟩, .unary .call (.target ⟨"puts", false⟩), 6, none⟩]

theorem finish_resolves_jumpOverCall :
    (start (.empty "unit") true).assembleAll jumpOverCall = .ok jumpOverCallDraft ∧
      ∃ b, jumpOverCallDraft.finish = (b, none) ∧
        b.unit.text = [0x0f, 0x84, 5, 0, 0, 0, 0xe8, 0, 0, 0, 0, 0xc3] ∧
        b.unit.relocs = [⟨7, "puts", .plt32, -4⟩] ∧ Resolved b.unit jumpOverCall := by
  have h : (start (.empty "unit") true).assembleAll jumpOverCall = .ok jumpOverCallDraft := rfl
  have hlen : jumpOverCallDraft.unit.text.length < 2 ^ 63 := by decide
  exact ⟨h, _, rfl, rfl, rfl, (finish_resolves (fresh_empty "unit") h hlen).1 _ rfl⟩

end Backend.Assembler
