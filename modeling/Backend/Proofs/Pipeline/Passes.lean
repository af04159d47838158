-- What runs of the pipeline are made of: a closure goes through the passes, which keep its symbol
-- and bring in no label, and is then emitted.
import Backend.Pipeline
import Backend.Proofs.Lowering.Origin
import Backend.Proofs.Peephole.Literals
import Backend.Proofs.Schedule.Meaning

namespace Backend

/-! ## Traced computations -/

namespace Traced

variable {ε ε' α β : Type}

/-- The computation ends so from some trace. -/
def Ends (x : Traced ε α) (r : Except ε α) : Prop := ∃ trace, (x.run.run trace).1 = r

theorem ends_of_result {x : Traced ε α} {r : Except ε α} (h : x.result.1 = r) : Ends x r := ⟨[], h⟩

theorem ends_pure {a : α} {r : Except ε α} (h : Ends (pure a) r) : r = .ok a := by
  obtain ⟨trace, h⟩ := h
  exact h.symm

/-- A sequence ends where its first part fails, or as its second part does. -/
theorem ends_bind {x : Traced ε α} {f : α → Traced ε β} {r : Except ε β} (h : Ends (x >>= f) r) :
    (∃ a, Ends x (.ok a) ∧ Ends (f a) r) ∨ ∃ e, Ends x (.error e) ∧ r = .error e := by
  obtain ⟨trace, h⟩ := h
  rw [ExceptT.run_bind, StateT.run_bind] at h
  rcases hx : x.run.run trace with ⟨a | a, after⟩
  · rw [hx] at h
    exact .inr ⟨a, ⟨trace, by rw [hx]⟩, h.symm⟩
  · rw [hx] at h
    exact .inl ⟨a, ⟨trace, by rw [hx]⟩, ⟨after, h⟩⟩

theorem ends_bind_ok {x : Traced ε α} {f : α → Traced ε β} {b : β} (h : Ends (x >>= f) (.ok b)) :
    ∃ a, Ends x (.ok a) ∧ Ends (f a) (.ok b) := by
  rcases ends_bind h with h | ⟨e, -, h⟩
  · exact h
  · cases h

theorem ends_record {r : TraceRecord} {o : Except ε Unit} (h : Ends (record r) o) : o = .ok () := by
  obtain ⟨trace, h⟩ := h
  exact h.symm

theorem ends_lift {context : ε → ε'} {x : Except ε α} {r : Except ε' α}
    (h : Ends (lift context x) r) : r = x.mapError context := by
  obtain ⟨trace, h⟩ := h
  cases x with
  | ok a => exact h.symm
  | error e => exact h.symm

theorem ends_lift_ok {context : ε → ε'} {x : Except ε α} {a : α}
    (h : Ends (lift context x) (.ok a)) : x = .ok a := by
  have h := ends_lift h
  cases x with
  | ok b =>
    cases h
    rfl
  | error e => cases h

theorem ends_lift_error {context : ε → ε'} {x : Except ε α} {e' : ε'}
    (h : Ends (lift context x) (.error e')) : ∃ e, x = .error e ∧ e' = context e := by
  have h := ends_lift h
  cases x with
  | ok b => cases h
  | error e =>
    cases h
    exact ⟨e, rfl, rfl⟩

theorem ends_throw {e : ε} {r : Except ε α} (h : Ends (throw e) r) : r = .error e := by
  obtain ⟨trace, h⟩ := h
  exact h.symm

theorem ends_adapt {context : ε → ε'} {x : Traced ε α} {r : Except ε' α}
    (h : Ends (x.adapt context) r) : ∃ r', Ends x r' ∧ r = r'.mapError context := by
  obtain ⟨trace, h⟩ := h
  refine ⟨(x.run.run trace).1, ⟨trace, rfl⟩, ?_⟩
  rw [← h]
  rfl

end Traced

/-! ## The passes -/

namespace Pipeline

open Traced

/-- What the passes keep of a closure: its symbol, and no label is new. -/
structure Passed (c c' : Closure) : Prop where
  symbol : c'.symbol = c.symbol
  labels : LabelsFrom (c'.blocks.flatMap Block.ops) (c.blocks.flatMap Block.ops)

theorem Passed.trans {c c' c'' : Closure} (h : Passed c c') (h' : Passed c' c'') : Passed c c'' :=
  ⟨h'.symbol.trans h.symbol, h'.labels.trans h.labels⟩

theorem Passed.refl (c : Closure) : Passed c c := ⟨rfl, .refl _⟩

theorem labelsFrom_of_blocks {bs bs' : List Block}
    (h : List.Forall₂ (fun b b' : Block => LabelsFrom b'.ops b.ops) bs bs') :
    LabelsFrom (bs'.flatMap Block.ops) (bs.flatMap Block.ops) := by
  induction h with
  | nil => exact .refl _
  | cons hfirst _ ih =>
    intro i hi hop
    rw [List.flatMap_cons, List.mem_append] at hi ⊢
    exact hi.imp (hfirst i · hop) (ih i · hop)

theorem passed_lower {t : Target} {c c' : Closure} (h : t.lower c = .ok c') : Passed c c' := by
  obtain ⟨hstatic, hblocks⟩ := Lowering.origin_of_lower h
  obtain ⟨hsymbol, -, hlayout⟩ := Lowering.layout_fields c
  rw [hlayout] at hblocks
  refine ⟨hstatic.symbol.trans hsymbol,
    labelsFrom_of_blocks (hblocks.imp fun b b' h j hj hop => ?_)⟩
  obtain ⟨i, hi, horigin⟩ := h.2 j hj
  rwa [horigin.label hop]

theorem passed_simplify {p : Pipeline} {c c' : Closure} (h : Ends (p.simplify c) (.ok c')) :
    Passed c c' := by
  unfold simplify at h
  split at h
  · obtain ⟨hsymbol, hlabels⟩ := Peephole.run_labels p.target.features p.sweeps c
    rcases hrun : Peephole.run p.target.features p.sweeps c with ⟨c1, summary⟩
    rw [hrun] at h hsymbol hlabels
    obtain ⟨-, -, h⟩ := ends_bind_ok h
    cases ends_pure h
    exact ⟨hsymbol, hlabels⟩
  · cases ends_pure h
    exact .refl c

theorem passed_schedule (roles : RegisterRoles) (c : Closure) :
    Passed c (Schedule.run roles c).1 := by
  have hblocks := (Schedule.scheduled_blocks_keep_meaning.{0, 0} roles c).2
  refine ⟨rfl, labelsFrom_of_blocks (hblocks.imp fun b b' h => ?_)⟩
  exact fun i hi _ => h.1.mem_iff.mp hi

theorem passed_reorder {p : Pipeline} {c c' : Closure} (h : Ends (p.reorder c) (.ok c')) :
    Passed c c' := by
  unfold reorder at h
  split at h
  · have hpassed := passed_schedule Target.roles c
    rcases hrun : Schedule.run Target.roles c with ⟨c1, error⟩
    rw [hrun] at h hpassed
    have hlast (h : Ends (do
        record (.done c1.name .schedule c1.length)
        pure c1 : Traced ClosureError Closure) (.ok c')) : Passed c c' := by
      obtain ⟨-, -, h⟩ := ends_bind_ok h
      cases ends_pure h
      exact hpassed
    dsimp only at h
    split at h
    · exact hlast h
    · split at h
      · obtain ⟨-, -, h⟩ := ends_bind_ok h
        exact hlast h
      · obtain ⟨_, hthrow, -⟩ := ends_bind_ok h
        cases ends_throw hthrow
  · cases ends_pure h
    exact .refl c

/-- Only a cycle stops the scheduling pass. -/
theorem error_of_reorder {p : Pipeline} {c : Closure} {e : ClosureError}
    (h : Ends (p.reorder c) (.error e)) : ∃ cause, e = .schedule c.name cause := by
  unfold reorder at h
  split at h
  · rcases hrun : Schedule.run Target.roles c with ⟨c1, error⟩
    have hname : c1.name = c.name := congrArg (fun r => r.1.name) hrun.symm
    rw [hrun] at h
    dsimp only at h
    have hlast (h : Ends (do
        record (.done c1.name .schedule c1.length)
        pure c1 : Traced ClosureError Closure) (.error e)) : False := by
      rcases ends_bind h with ⟨-, -, h⟩ | ⟨e', h, -⟩
      · cases ends_pure h
      · cases ends_record h
    split at h
    · exact (hlast h).elim
    · rename_i cause
      split at h
      · rcases ends_bind h with ⟨-, -, h⟩ | ⟨e', h, -⟩
        · exact (hlast h).elim
        · cases ends_record h
      · rcases ends_bind h with ⟨_, h, -⟩ | ⟨e', h, he⟩
        · cases ends_throw h
        · cases ends_throw h
          cases he
          exact ⟨cause, by rw [hname]⟩
  · cases ends_pure h

theorem simplify_ne_error {p : Pipeline} {c : Closure} {e : ClosureError} :
    ¬ Ends (p.simplify c) (.error e) := by
  intro h
  unfold simplify at h
  split at h
  · rcases ends_bind h with ⟨-, -, h⟩ | ⟨e', h, -⟩
    · cases ends_pure h
    · cases ends_record h
  · cases ends_pure h

/-- A closure that is compiled, or refused when it is emitted, has gone through the passes. -/
theorem emitted_of_compileClosure {p : Pipeline} {a : Assembler} {c : Closure} :
    (∀ b, Ends (p.compileClosure a c) (.ok b) →
      ∃ c', Passed c c' ∧ a.emitClosure c' = .ok b) ∧
    ∀ name e, Ends (p.compileClosure a c) (.error (.emit name e)) →
      ∃ c', Passed c c' ∧ a.emitClosure c' = .error e := by
  constructor
  · intro b h
    obtain ⟨c1, h1, h⟩ := ends_bind_ok h
    obtain ⟨-, -, h⟩ := ends_bind_ok h
    obtain ⟨c2, h2, h⟩ := ends_bind_ok h
    obtain ⟨c3, h3, h⟩ := ends_bind_ok h
    obtain ⟨b', hb, h⟩ := ends_bind_ok h
    obtain ⟨-, -, h⟩ := ends_bind_ok h
    cases ends_pure h
    have hpassed := ((passed_lower (ends_lift_ok h1)).trans (passed_simplify h2)).trans
      (passed_reorder h3)
    exact ⟨c3, hpassed, ends_lift_ok hb⟩
  · intro name e h
    rcases ends_bind h with ⟨c1, h1, h⟩ | ⟨e', h, he⟩
    · rcases ends_bind h with ⟨-, -, h⟩ | ⟨e', h, -⟩
      · rcases ends_bind h with ⟨c2, h2, h⟩ | ⟨e', h, -⟩
        · rcases ends_bind h with ⟨c3, h3, h⟩ | ⟨e', h, he⟩
          · have hpassed := ((passed_lower (ends_lift_ok h1)).trans (passed_simplify h2)).trans
              (passed_reorder h3)
            rcases ends_bind h with ⟨b', -, h⟩ | ⟨e', h, he⟩
            · rcases ends_bind h with ⟨-, -, h⟩ | ⟨e', h, -⟩
              · cases ends_pure h
              · cases ends_record h
            · obtain ⟨cause, hcause, rfl⟩ := ends_lift_error h
              cases he
              exact ⟨c3, hpassed, hcause⟩
          · obtain ⟨cause, rfl⟩ := error_of_reorder h
            cases he
        · exact absurd h simplify_ne_error
      · cases ends_record h
    · obtain ⟨cause, -, rfl⟩ := ends_lift_error h
      cases he

end Pipeline

end Backend
