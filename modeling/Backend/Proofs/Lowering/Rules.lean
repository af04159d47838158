-- Rules for what lowering keeps true of its state, step by step through the monad of lowering. The
-- step that makes an address encodable is taken apart here, for any property of steps.
import Backend.Lowering.Closure
import Backend.Proofs.Machine.State

namespace Backend.Lowering

/-- When the step ends, the state satisfies `I` if it did before, and the result satisfies `Q`. -/
def Maintains {α : Type} (I : State → Prop) (m : LowerM α) (Q : α → Prop) : Prop :=
  ∀ s a s', m s = .ok (a, s') → I s → I s' ∧ Q a

variable {α β : Type} {I : State → Prop} {Q Q' : α → Prop} {R : β → Prop}

/-! ## Sequences -/

theorem maintains_pure {a : α} (h : Q a) : Maintains I (pure a) Q := by
  intro s b s' hs hI
  cases hs
  exact ⟨hI, h⟩

theorem maintains_bind {m : LowerM α} {f : α → LowerM β} (hm : Maintains I m Q)
    (hf : ∀ a, Q a → Maintains I (f a) R) : Maintains I (m >>= f) R := by
  intro s b s' hs hI
  obtain ⟨⟨a, s1⟩, h1, h2⟩ := bind_eq_ok.mp hs
  obtain ⟨hI1, ha⟩ := hm s a s1 h1 hI
  exact hf a ha s1 b s' h2 hI1

theorem Maintains.mono {m : LowerM α} (h : Maintains I m Q) (hq : ∀ a, Q a → Q' a) :
    Maintains I m Q' := by
  intro s a s' hs hI
  exact ⟨(h s a s' hs hI).1, hq a (h s a s' hs hI).2⟩

theorem maintains_fail (cx : Context) (d : Defect) : Maintains I (fail cx d) Q := by
  intro s a s' hs
  cases hs

theorem maintains_get : Maintains I get I := by
  intro s a s' hs hI
  cases hs
  exact ⟨hI, hI⟩

theorem maintains_modify {f : State → State} (h : ∀ s, I s → I (f s)) :
    Maintains I (modify f) fun _ => True := by
  intro s a s' hs hI
  cases hs
  exact ⟨h s hI, trivial⟩

/-- What comes after both branches of a choice is looked at once. -/
theorem maintains_join {c : Prop} [Decidable c] {m1 m2 : LowerM α} {f : α → LowerM β}
    (h1 : Maintains I m1 Q) (h2 : Maintains I m2 Q) (hf : ∀ a, Q a → Maintains I (f a) R) :
    Maintains I (if c then m1 >>= f else m2 >>= f) R := by
  split
  · exact maintains_bind h1 hf
  · exact maintains_bind h2 hf

theorem maintains_when {c : Prop} [Decidable c] {m : LowerM α} {k : LowerM β}
    (hm : c → Maintains I m fun _ => True) (hk : Maintains I k R) :
    Maintains I (if c then m >>= fun _ => k else k) R := by
  split
  · rename_i hc
    exact maintains_bind (hm hc) fun _ _ => hk
  · exact hk

/-! ## Repetitions -/

theorem maintains_forIn {xs : List α} {f : α → PUnit → LowerM (ForInStep PUnit)}
    (h : ∀ a ∈ xs, ∀ u, Maintains I (f a u) fun _ => True) (u : PUnit) :
    Maintains I (forIn xs u f) fun _ => True := by
  induction xs generalizing u with
  | nil => exact maintains_pure trivial
  | cons a rest ih =>
    rw [List.forIn_cons]
    refine maintains_bind (h a List.mem_cons_self u) fun step _ => ?_
    cases step with
    | done u => exact maintains_pure trivial
    | yield u => exact ih (fun b hb => h b (List.mem_cons_of_mem a hb)) u

/-- A loop without a result. -/
theorem maintains_each {xs : List α} {f : α → LowerM Unit}
    (h : ∀ a ∈ xs, Maintains I (f a) fun _ => True) :
    Maintains I (forIn xs PUnit.unit fun a _ => do
      f a
      pure (ForInStep.yield PUnit.unit)) fun _ => True :=
  maintains_forIn (fun a ha _ => maintains_bind (h a ha) fun _ _ => maintains_pure trivial) _

theorem maintains_foldlM {xs : List α} {f : β → α → LowerM β}
    (h : ∀ a ∈ xs, ∀ b, R b → Maintains I (f b a) R) {b : β} (hb : R b) :
    Maintains I (xs.foldlM f b) R := by
  induction xs generalizing b with
  | nil => exact maintains_pure hb
  | cons a rest ih =>
    rw [List.foldlM_cons]
    obtain ⟨ha, hrest⟩ := List.forall_mem_cons.mp h
    exact maintains_bind (ha b hb) fun b' hb' => ih hrest hb'

theorem maintains_mapM {xs : List α} {f : α → LowerM β} (h : ∀ a ∈ xs, Maintains I (f a) R) :
    Maintains I (xs.mapM f) fun bs => ∀ b ∈ bs, R b := by
  induction xs with
  | nil => exact maintains_pure fun b hb => by cases hb
  | cons a rest ih =>
    rw [List.mapM_cons]
    obtain ⟨ha, hrest⟩ := List.forall_mem_cons.mp h
    refine maintains_bind ha fun b hb => maintains_bind (ih hrest) fun bs hbs => ?_
    exact maintains_pure (List.forall_mem_cons.mpr ⟨hb, hbs⟩)

/-! ## Variables -/

theorem maintains_locate (cx : Context) (v : Var) : Maintains I (locate cx v) fun _ => True := by
  unfold locate
  refine maintains_bind maintains_get fun st _ => ?_
  split
  · exact maintains_pure trivial
  · exact maintains_fail cx _

theorem maintains_inRegister (cx : Context) (o : Operand) :
    Maintains I (inRegister cx o) fun _ => True := by
  unfold inRegister
  split
  · exact maintains_pure trivial
  · exact maintains_bind (maintains_locate cx _) fun _ _ => maintains_pure trivial
  · exact maintains_pure trivial

/-! ## Blocks -/

/-- The first block is lowered by lowering its instructions, and the others after it. -/
theorem blocks_cons_eq_ok {variadic : List String} {scratch : Option Int64} {c c' : Closure}
    {b : Block} {rest bs' : List Block}
    (h : blocks variadic scratch c (b :: rest) = .ok (c', bs')) :
    ∃ st rest', (b.ops.forM fun i => instr ⟨variadic, scratch, i⟩) ⟨c, []⟩ = .ok (.unit, st) ∧
      blocks variadic scratch st.closure rest = .ok (c', rest') ∧
      bs' = { b with ops := st.out } :: rest' := by
  obtain ⟨⟨c1, b1⟩, hblock, h⟩ := bind_eq_ok.mp h
  obtain ⟨⟨c2, rest'⟩, hrest, h⟩ := bind_eq_ok.mp h
  cases h
  obtain ⟨⟨u, st⟩, hops, hblock⟩ := bind_eq_ok.mp hblock
  cases hblock
  exact ⟨st, rest', hops, hrest, rfl⟩

/-! ## Addresses -/

/-- A line that computes into the temporary register as a word of an address. -/
def addressLine (cx : Context) (op : Opcode) (first second : Option Operand) : Instr :=
  ⟨op, first, second, none, some (.reg (tempReg .i64)), cx.instr.pos⟩

/-- The lines that load an index, scale it and add a base. -/
def sumLines (cx : Context) (b x : Operand) (scale : UInt8) : List Instr :=
  addressLine cx .move (some x) none ::
    ((if scale > 1 then [addressLine cx .shl (some (.reg (tempReg .i64)))
        (some (.imm (.ofInt .i8 (Int64.ofNat (trailingZeros scale)))))] else []) ++
      [addressLine cx .add (some (.reg (tempReg .i64))) (some b)])

/-- How the parts of an address come into registers, where `K` says which are in one: the base or
the index is loaded into the temporary register, or the sum of both. The lines that do so leave
other parts and another scale. -/
inductive Loading (cx : Context) (K : Operand → Bool → Prop) :
    Option Operand → Option Operand → UInt8 →
    List Instr → Option Operand → Option Operand → UInt8 → Prop
  | base {b : Operand} {x : Option Operand} {f : UInt8} {op : Opcode}
      (form : (op = .lea ∧ ∃ y, b = .symbol y) ∨ op = .move) (loaded : K b false)
      (kept : ∀ part, x = some part → K part true) :
      Loading cx K (some b) x f [addressLine cx op (some b) none] (some (.reg (tempReg .i64))) x f
  | index {b : Option Operand} {x : Operand} {f : UInt8} (loaded : K x false)
      (kept : ∀ part, b = some part → K part true) :
      Loading cx K b (some x) f [addressLine cx .move (some x) none] b
        (some (.reg (tempReg .i64))) f
  | sum {b x : Operand} {f : UInt8} (base : K b false) (index : K x false) (named : ∀ y,
      b ≠ .symbol y) :
      Loading cx K (some b) (some x) f (sumLines cx b x f) (some (.reg (tempReg .i64))) none 1

/-- A line that loads a part of an address, scales it or adds to it. -/
inductive AddressLine (cx : Context) : Instr → Prop
  | intro {op : Opcode} {first second : Option Operand}
      (form : op = .move ∨ op = .lea ∨ op = .shl ∨ op = .add)
      (count : op = .shl → ∃ l, second = some (.imm l)) :
      AddressLine cx (addressLine cx op first second)

theorem Loading.line {cx : Context} {K : Operand → Bool → Prop} {b x b' x' : Option Operand}
    {f f' : UInt8} {lines : List Instr} (h : Loading cx K b x f lines b' x' f') {i : Instr}
    (hi : i ∈ lines) : AddressLine cx i := by
  have hmove (o : Option Operand) : AddressLine cx (addressLine cx .move o none) :=
    .intro (.inl rfl) nofun
  cases h with
  | base form =>
    obtain rfl := List.mem_singleton.mp hi
    rcases form with ⟨rfl, -⟩ | rfl
    · exact .intro (.inr (.inl rfl)) nofun
    · exact hmove _
  | index =>
    obtain rfl := List.mem_singleton.mp hi
    exact hmove _
  | sum =>
    rcases List.mem_cons.mp hi with rfl | hi
    · exact hmove _
    rcases List.mem_append.mp hi with hi | hi
    · split at hi
      · obtain rfl := List.mem_singleton.mp hi
        exact .intro (.inr (.inr (.inl rfl))) fun _ => ⟨_, rfl⟩
      · cases hi
    · obtain rfl := List.mem_singleton.mp hi
      exact .intro (.inr (.inr (.inr rfl))) nofun

/-- Both parts of an address that is loaded have been looked at. -/
theorem Loading.looked {cx : Context} {K : Operand → Bool → Prop} {b x b' x' : Option Operand}
    {f f' : UInt8} {lines : List Instr} (h : Loading cx K b x f lines b' x' f') {part : Operand}
    (hpart : b = some part ∨ x = some part) : ∃ ok, K part ok := by
  cases h with
  | base _ loaded kept =>
    rcases hpart with hpart | hpart
    · cases hpart
      exact ⟨_, loaded⟩
    · exact ⟨_, kept part hpart⟩
  | index loaded kept =>
    rcases hpart with hpart | hpart
    · exact ⟨_, kept part hpart⟩
    · cases hpart
      exact ⟨_, loaded⟩
  | sum base index =>
    rcases hpart with hpart | hpart
    · cases hpart
      exact ⟨_, base⟩
    · cases hpart
      exact ⟨_, index⟩

/-- Lines before a step. -/
def keepAll (lines : List Instr) (m : LowerM α) : LowerM α :=
  lines.foldr (fun i m => keep i >>= fun _ => m) m

theorem keepAll_rule {R : LowerM α → Prop} {lines : List Instr} {m : LowerM α}
    (hkeep : ∀ i ∈ lines, ∀ m, R m → R (keep i >>= fun _ => m)) (h : R m) :
    R (keepAll lines m) := by
  induction lines with
  | nil => exact h
  | cons i rest ih =>
    obtain ⟨hi, hrest⟩ := List.forall_mem_cons.mp hkeep
    exact hi _ (ih hrest)

theorem keepAll_sumLines (cx : Context) (b x : Operand) (f : UInt8) (m : LowerM α) :
    keepAll (sumLines cx b x f) m = (do
      emit cx .move (some x) none (some (.reg (tempReg .i64)))
      if f > 1 then
        emit cx .shl (some (.reg (tempReg .i64)))
          (some (.imm (.ofInt .i8 (Int64.ofNat (trailingZeros f))))) (some (.reg (tempReg .i64)))
      emit cx .add (some (.reg (tempReg .i64))) (some b) (some (.reg (tempReg .i64)))
      m) := by
  unfold sumLines
  by_cases hscale : f > 1
  · simp only [if_pos hscale]
    rfl
  · simp only [if_neg hscale]
    rfl

theorem sumLines_rule {cx : Context} {b x : Operand} {f : UInt8} {R : LowerM α → Prop}
    {m : LowerM α} (hload : ∀ m, R m →
      R (emit cx .move (some x) none (some (.reg (tempReg .i64))) >>= fun _ => m))
    (hscale : ∀ k m, R m → R (emit cx .shl (some (.reg (tempReg .i64))) (some (.imm (.ofInt .i8 k)))
      (some (.reg (tempReg .i64))) >>= fun _ => m))
    (hadd : ∀ m, R m → R (emit cx .add (some (.reg (tempReg .i64))) (some b)
      (some (.reg (tempReg .i64))) >>= fun _ => m)) (h : R m) :
      R (keepAll (sumLines cx b x f) m) := by
  unfold keepAll sumLines
  split
  · exact hload _ (hscale _ _ (hadd _ h))
  · exact hload _ (hadd _ h)

/-- A base is loaded by its address if it is a symbol, and else by a move. -/
theorem loadBase_rule {cx : Context} {b : Operand} {R : LowerM α → Prop} {m : LowerM α}
    (hfail : R (fail cx (.addressBase b)))
    (hload : ∀ op, (op = .lea ∧ ∃ y, b = .symbol y) ∨ op = .move →
      R (emit cx op (some b) none (some (.reg (tempReg .i64))) >>= fun _ => m)) :
    R (loadBase cx b (tempReg .i64) >>= fun _ => m) := by
  unfold loadBase
  split
  · exact hload _ (.inl ⟨rfl, _, rfl⟩)
  · exact hload _ (.inr rfl)
  · exact hload _ (.inr rfl)
  · exact hfail

section Address

variable {cx : Context} {slot : Slot} {base index : Option Operand} {scale : UInt8} {disp : Int64}
  {t : Ty} {d : Draft} {K : Operand → Bool → Prop}

/-- What holds of a step that makes an address encodable. `R` is about the step, `S` about the rest
of it once the temporary register is taken. -/
theorem address_rule {R : LowerM Draft → Prop} {S : Draft → LowerM Draft → Prop}
    (hfail : ∀ e, (∀ o, e ≠ .noScratch o) → R (fail cx e))
    (hfail' : ∀ d1 e, (∀ o, e ≠ .noScratch o) → S d1 (fail cx e))
    (hlook : ∀ o f, (∀ ok, K o ok → R (f ok)) → R (inRegister cx o >>= f))
    (hreserve : ∀ f, (∀ d1, S d1 (f d1)) → R (reserveTemp cx slot d >>= f))
    (hfolded : ∀ b x f k, foldAddress base index scale disp = (b, x, f, k) →
      Machine.fitsInt32 k = true → (b.isSome ∨ x.isSome) →
      (∀ part, b = some part ∨ x = some part → K part true) →
      R (pure (d.put slot (.indirect b x f k t))))
    (hload : ∀ b x f k, foldAddress base index scale disp = (b, x, f, k) →
      Machine.fitsInt32 k = true → ∀ lines b' x' f', Loading cx K b x f lines b' x' f' →
      ∀ d1, S d1 (keepAll lines (pure (d1.put slot (.indirect b' x' f' k t))))) :
    R (address cx slot base index scale disp t d) := by
  -- A part that is missing is not looked at.
  have hlook' : ∀ o g, (∀ ok, (∀ part, o = some part → K part ok) → (o = none → ok = true) →
      R (g ok)) →
      R (addressable cx o >>= g) := by
    intro o g h
    cases o with
    | none => exact h true (fun part hpart => by cases hpart) fun _ => rfl
    | some part =>
      refine hlook part g fun ok hok => h ok (fun part' hpart => ?_) fun hnone => by cases hnone
      cases hpart
      exact hok
  unfold address
  rcases hfold : foldAddress base index scale disp with ⟨b, x, f, k⟩
  dsimp only
  split
  · exact hfail _ fun o h => by cases h
  rename_i hfit
  have hfit : Machine.fitsInt32 k = true := by simpa using hfit
  split
  · exact hfail _ fun o h => by cases h
  rename_i hsome
  refine hlook' b _ fun baseOk hb hbnone => hlook' x _ fun indexOk hx hxnone => ?_
  split
  · rename_i hboth
    obtain ⟨rfl, rfl⟩ := Bool.and_eq_true_iff.mp hboth
    refine hfolded b x f k hfold hfit ?_ fun part hpart => hpart.elim (hb part) (hx part)
    cases b <;> cases x <;> simp_all
  rename_i hboth
  refine hreserve _ fun d1 => ?_
  have hload := hload b x f k hfold hfit
  have hbase : ∀ part, b = some part → baseOk = false → (∀ part, x = some part → indexOk = true) →
      S d1 (loadBase cx part (tempReg .i64) >>= fun _ =>
        pure (d1.put slot (.indirect (some (.reg (tempReg .i64))) x f k t))) := by
    rintro part rfl rfl hok
    have hkept : ∀ part, x = some part → K part true :=
      fun part hpart => hok part hpart ▸ hx part hpart
    exact loadBase_rule (hfail' d1 _ fun o h => by cases h) fun op hform =>
      hload _ _ _ _ (.base hform (hb part rfl) hkept) d1
  cases b with
  | none =>
    cases x with
    | none => simp at hsome
    | some part =>
      obtain rfl := hbnone rfl
      obtain rfl : indexOk = false := by simpa using hboth
      exact hload _ _ _ _ (.index (hx part rfl) fun part hpart => by cases hpart) d1
  | some b =>
    cases x with
    | none =>
      obtain rfl := hxnone rfl
      exact hbase b rfl (by simpa using hboth) fun part hpart => by cases hpart
    | some x =>
      cases baseOk with
      | false =>
        cases indexOk with
        | false =>
          simp only [Bool.not_false, Bool.and_self, if_true]
          split
          · exact hfail' d1 _ fun o h => by cases h
          · rename_i hnamed
            have hsum := hload _ _ _ _ (.sum (hb b rfl) (hx x rfl) hnamed) d1
            rw [keepAll_sumLines] at hsum
            exact hsum
        | true => exact hbase b rfl rfl fun _ _ => rfl
      | true =>
        obtain rfl : indexOk = false := by simpa using hboth
        refine hload _ _ _ _ (.index (hx x rfl) fun part hpart => ?_) d1
        exact hb part hpart

/-- What holds of a step that makes an address encodable, where all lines that load its parts are
treated alike. -/
theorem address_lines_rule {R : LowerM Draft → Prop} {Q : Draft → Prop}
    (hfail : ∀ e, (∀ o, e ≠ .noScratch o) → R (fail cx e))
    (hlook : ∀ o f, (∀ ok, R (f ok)) → R (inRegister cx o >>= f))
    (hreserve : ∀ f, (∀ d1, Q d1 → R (f d1)) → R (reserveTemp cx slot d >>= f))
    (hkeep : ∀ i, AddressLine cx i → ∀ m, R m → R (keep i >>= fun _ => m))
    (hfolded : ∀ b x f k, foldAddress base index scale disp = (b, x, f, k) →
      R (pure (d.put slot (.indirect b x f k t))))
    (hput : ∀ d1 b x f k, Q d1 → R (pure (d1.put slot (.indirect b x f k t)))) :
    R (address cx slot base index scale disp t d) := by
  refine address_rule (K := fun _ _ => True) (S := fun d1 m => Q d1 → R m) hfail
    (fun _ e he _ => hfail e he) (fun o f h => hlook o f fun ok => h ok trivial) hreserve
    (fun b x f k hfold _ _ _ => hfolded b x f k hfold) ?_
  intro b x f k _ _ lines b' x' f' hload d1 h1
  exact keepAll_rule (fun i hi => hkeep i (hload.line hi)) (hput d1 b' x' f' k h1)

end Address

end Backend.Lowering
