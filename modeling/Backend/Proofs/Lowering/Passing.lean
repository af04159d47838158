-- What a call does with its arguments: its code leaves every argument in the place that the
-- convention gives it.
import Backend.Proofs.Lowering.Addresses
import Backend.Proofs.Lowering.ArgPlaces

namespace Backend.Lowering

/-! ## Handing out places to arguments -/

/-- The arguments of a call. -/
def callArgs (i : Instr) : List Operand :=
  match i.second with
  | none => []
  | some (.list items) => items
  | some a => [a]

/-- What handing out places to arguments comes to. -/
structure Assigned (args : List Operand) (st : ArgState) : Prop where
  count : st.args = argCount (args.map Operand.ty)
  slots : st.stack.length = overflow (args.map Operand.ty)
  reg : ∀ before a after r, args = before ++ a :: after →
    argPlace (before.map Operand.ty) a.ty = .reg r → ⟨.reg r, a, false⟩ ∈ st.moves
  slot : ∀ before a after k, args = before ++ a :: after →
    argPlace (before.map Operand.ty) a.ty = .stack k → st.stack[k]? = some a
  moves : ∀ m ∈ st.moves, ∃ before a after r, args = before ++ a :: after ∧
    argPlace (before.map Operand.ty) a.ty = .reg r ∧ m = ⟨.reg r, a, false⟩
  apart : st.moves.Pairwise fun m m' => ∀ r r', m.dst = .reg r → m'.dst = .reg r' → r.key ≠ r'.key

theorem split_concat {α : Type} {xs before after : List α} {x a : α}
    (h : xs ++ [x] = before ++ a :: after) :
    (before = xs ∧ a = x) ∨ ∃ after', xs = before ++ a :: after' := by
  rcases List.eq_nil_or_concat after with rfl | ⟨after', y, rfl⟩
  · obtain ⟨h1, h2⟩ := List.append_inj' h rfl
    exact .inl ⟨h1.symm, (List.singleton_inj.mp h2).symm⟩
  · have h' : xs ++ [x] = (before ++ a :: after') ++ [y] := by simpa using h
    exact .inr ⟨after', (List.append_inj' h' rfl).1⟩

/-- The step lemma for an argument that finds a register. -/
theorem Assigned.inReg {args : List Operand} {st : ArgState} {x : Operand} {r : Reg}
    (h : Assigned args st) (hp : argPlace (args.map Operand.ty) x.ty = .reg r) :
    Assigned (args ++ [x]) ⟨argCount ((args ++ [x]).map Operand.ty),
      st.moves ++ [⟨.reg r, x, false⟩], st.stack⟩ := by
  refine ⟨rfl, ?_, ?_, ?_, ?_, ?_⟩
  · simp only [List.map_append, List.map_cons, List.map_nil]
    rw [overflow_of_reg hp]
    exact h.slots
  · intro before a after r' hsplit hplace
    rcases split_concat hsplit with ⟨rfl, rfl⟩ | ⟨after', rfl⟩
    · rw [hp] at hplace
      cases hplace
      simp
    · exact List.mem_append_left _ (h.reg before a after' r' rfl hplace)
  · intro before a after k hsplit hplace
    rcases split_concat hsplit with ⟨rfl, rfl⟩ | ⟨after', rfl⟩
    · rw [hp] at hplace
      cases hplace
    · exact h.slot before a after' k rfl hplace
  · intro m hm
    rcases List.mem_append.mp hm with hm | hm
    · obtain ⟨before, a, after, r', hsplit, hplace, rfl⟩ := h.moves m hm
      exact ⟨before, a, after ++ [x], r', by simp [hsplit], hplace, rfl⟩
    · obtain rfl := List.mem_singleton.mp hm
      exact ⟨args, x, [], r, rfl, hp, rfl⟩
  · refine List.pairwise_append.mpr ⟨h.apart, List.pairwise_singleton _ _, ?_⟩
    intro m hm m' hm' r₁ r₂ h₁ h₂
    obtain rfl := List.mem_singleton.mp hm'
    obtain ⟨before, a, after, r', hsplit, hplace, rfl⟩ := h.moves m hm
    cases h₁
    cases h₂
    have hapart := argPlace_apart (before.map Operand.ty) (after.map Operand.ty) a.ty x.ty
    rw [hplace, show before.map Operand.ty ++ a.ty :: after.map Operand.ty =
      args.map Operand.ty by simp [hsplit], hp] at hapart
    exact hapart

/-- The step lemma for an argument that goes on the stack. -/
theorem Assigned.onStack {args : List Operand} {st : ArgState} {x : Operand} {k : Nat}
    (h : Assigned args st) (hp : argPlace (args.map Operand.ty) x.ty = .stack k) :
    Assigned (args ++ [x]) ⟨argCount ((args ++ [x]).map Operand.ty), st.moves,
      st.stack ++ [x]⟩ := by
  obtain ⟨hk, hk'⟩ := overflow_of_stack hp
  have hlen : st.stack.length = k := h.slots.trans hk
  refine ⟨rfl, ?_, ?_, ?_, ?_, h.apart⟩
  · simp only [List.map_append, List.map_cons, List.map_nil, List.length_append, List.length_cons,
      List.length_nil]
    omega
  · intro before a after r' hsplit hplace
    rcases split_concat hsplit with ⟨rfl, rfl⟩ | ⟨after', rfl⟩
    · rw [hp] at hplace
      cases hplace
    · exact h.reg before a after' r' rfl hplace
  · intro before a after k' hsplit hplace
    rcases split_concat hsplit with ⟨rfl, rfl⟩ | ⟨after', rfl⟩
    · rw [hp] at hplace
      cases hplace
      simp [hlen]
    · have hold := h.slot before a after' k' rfl hplace
      have hlt : k' < st.stack.length := (List.getElem?_eq_some_iff.mp hold).1
      simpa [List.getElem?_append_left hlt] using hold
  · intro m hm
    obtain ⟨before, a, after, r', hsplit, hplace, rfl⟩ := h.moves m hm
    exact ⟨before, a, after ++ [x], r', by simp [hsplit], hplace, rfl⟩

/-- The run lemma: arguments are given the places of the convention. -/
theorem assigned_foldl (args : List Operand) :
    Assigned args (args.foldl assignArg ⟨⟨0, 0⟩, [], []⟩) := by
  induction args using List.reverseRecOn with
  | nil => exact ⟨rfl, rfl, by simp, by simp, by simp, .nil⟩
  | append_singleton args x ih =>
    rw [List.foldl_append, List.foldl_cons, List.foldl_nil]
    have hnext := next_argCount (args.map Operand.ty) x.ty
    rw [← ih.count] at hnext
    cases hp : argPlace (args.map Operand.ty) x.ty with
    | reg r =>
      rw [hp] at hnext
      simpa [assignArg, hnext, ArgPlace.reg?] using ih.inReg hp
    | stack k =>
      rw [hp] at hnext
      simpa [assignArg, hnext, ArgPlace.reg?] using ih.onStack hp

/-- Where an argument with a place is. -/
theorem Assigned.at_place {args : List Operand} {st : ArgState} (h : Assigned args st) {i : Nat}
    {a : Operand} {place : ArgPlace} (ha : args[i]? = some a)
    (hplace : (argPlaces (args.map Operand.ty))[i]? = some place) :
    match place with
    | .reg r => ⟨.reg r, a, false⟩ ∈ st.moves
    | .stack k => st.stack[k]? = some a := by
  obtain ⟨hlt, hget⟩ := List.getElem?_eq_some_iff.mp ha
  rw [getElem?_argPlaces, List.getElem?_map, ha, ← List.map_take] at hplace
  have hat := Option.some.inj hplace
  have hsplit : args = args.take i ++ a :: args.drop (i + 1) := by
    rw [← hget, List.getElem_cons_drop, List.take_append_drop]
  cases place with
  | reg r => exact h.reg _ a _ r hsplit hat
  | stack k => exact h.slot _ a _ k hsplit hat

/-! ## Operands that need the temporary register -/

/-- A memory operand with a part that is in no general purpose register. -/
def needsTemp (locs : Locations) : Operand → Bool
  | .indirect base index scale disp _ =>
    let (b, i, _, _) := foldAddress base index scale disp
    !(isResident locs b && isResident locs i)
  | _ => false

theorem needsTemp_of_ne {locs : Locations} {o : Operand}
    (h : ∀ base part scale disp t, o ≠ .indirect base part scale disp t) :
    needsTemp locs o = false := by
  cases o with
  | indirect base part scale disp t => exact absurd rfl (h base part scale disp t)
  | _ => rfl

section Address

variable {cx : Context} {s s' : State} {slot : Slot} {base index : Option Operand} {scale : UInt8}
  {disp : Int64} {t : Ty} {d d' : Draft}

theorem resident_of_addressable {o : Option Operand} {ok : Bool}
    (h : addressable cx o s = .ok (ok, s')) : s' = s ∧ ok = isResident s.closure.locations o := by
  refine ⟨(locate_of_addressable h).1, ?_⟩
  cases o with
  | none =>
    cases h
    rfl
  | some o =>
    cases o with
    | var v =>
      obtain ⟨l, s1, hloc, hpure⟩ := run_bind.mp h
      cases hpure
      have hlook := (Option.filter_eq_some_iff.mp (locate?_of_locate hloc).2).1
      cases hr : l.reg <;> simp [isResident, inGpr, regOf?, Locations.reg?, hlook, hr]
    | _ =>
      cases h
      rfl

/-- A memory operand whose parts are in registers is only folded. For another one the temporary
register is taken. -/
theorem address_cases (h : address cx slot base index scale disp t d s = .ok (d', s')) :
    (needsTemp s.closure.locations (.indirect base index scale disp t) = false ∧
        d' = d.put slot (folded base index scale disp t) ∧ s' = s) ∨
      needsTemp s.closure.locations (.indirect base index scale disp t) = true ∧
        d'.holder = some slot := by
  have hneeds {b x : Option Operand} {f : UInt8} {k : Int64}
      (hfold : foldAddress base index scale disp = (b, x, f, k)) :
      needsTemp s.closure.locations (.indirect base index scale disp t) =
        !(isResident s.closure.locations b && isResident s.closure.locations x) := by
    rw [needsTemp, hfold]
  have hresident (o : Option Operand)
      (ho : ∀ part, o = some part → true = isResident s.closure.locations (some part)) :
      isResident s.closure.locations o = true := by
    cases o with
    | none => rfl
    | some part => exact (ho part rfl).symm
  refine address_rule (K := fun o ok => ok = isResident s.closure.locations (some o))
    (R := fun m => ∀ d' s', m s = .ok (d', s') →
      (needsTemp s.closure.locations (.indirect base index scale disp t) = false ∧
        d' = d.put slot (folded base index scale disp t) ∧ s' = s) ∨
      needsTemp s.closure.locations (.indirect base index scale disp t) = true ∧
        d'.holder = some slot)
    (S := fun d1 m => d1.holder = some slot → ∀ s1 d' s', m s1 = .ok (d', s') →
      needsTemp s.closure.locations (.indirect base index scale disp t) = true ∧
      d'.holder = some slot)
    (fun _ _ _ _ hfail => by cases hfail) (fun _ _ _ _ _ _ _ hfail => by cases hfail)
    (fun o f hf d' s' hok => ?_) (fun f hf d' s' hok => ?_)
    (fun b x f k hfold _ _ hkept d' s' hok => ?_)
    (fun b x f k hfold _ lines b' x' f' hload d1 hd s1 d' s' hok => ⟨?_, ?_⟩) d' s' h
  · obtain ⟨ok, s1, hin, hok⟩ := run_bind.mp hok
    obtain ⟨rfl, rfl⟩ := resident_of_addressable (o := some o) hin
    exact hf _ rfl d' s' hok
  · obtain ⟨d1, s1, hr, hok⟩ := run_bind.mp hok
    exact .inr (hf d1 (appends_reserveTemp cx slot d _ _ _ hr).2.2.1 s1 d' s' hok)
  · cases hok
    refine .inl ⟨?_, by rw [folded, hfold], rfl⟩
    rw [hneeds hfold, hresident b fun part hp => hkept part (.inl hp),
      hresident x fun part hp => hkept part (.inr hp)]
    rfl
  · rw [hneeds hfold]
    cases hload with
    | base _ loaded => rw [← loaded, Bool.false_and, Bool.not_false]
    | index loaded => rw [← loaded, Bool.and_false, Bool.not_false]
    | sum loaded => rw [← loaded, Bool.false_and, Bool.not_false]
  · refine keepAll_rule (R := fun m => ∀ s1 d' s', m s1 = .ok (d', s') → d'.holder = some slot)
      (fun i _ m hm s1 d' s' hok => ?_) (fun s1 d' s' hok => ?_) s1 d' s' hok
    · obtain ⟨_, s2, -, hok⟩ := run_bind.mp hok
      exact hm s2 d' s' hok
    · cases hok
      exact hd

end Address

/-! ## The code between an argument and the call -/

/-- The instruction computes into a frame slot or into another register than the one with the
key. -/
structure Spares (key : Nat) (i : Instr) : Prop where
  op : i.op = .move ∨ i.op = .lea ∨ i.op = .shl ∨ i.op = .add ∨ i.op = .clr
  output : (∃ offset t, i.output = some (.stack offset t)) ∨
    ∃ r, i.output = some (.reg r) ∧ r.key ≠ key

theorem Spares.not_push {key : Nat} {i : Instr} (h : Spares key i) : i.op ≠ .push := by
  intro hop
  have hops := h.op
  rw [hop] at hops
  rcases hops with h | h | h | h | h <;> cases h

theorem TempWork.spares {i : Instr} (h : TempWork i) {key : Nat} (hkey : key ≠ regR10.key) :
    Spares key i := by
  obtain ⟨hop, t, houtput⟩ := h
  exact ⟨by tauto, .inr ⟨_, houtput, fun h => hkey h.symm⟩⟩

theorem Scratchwork.spares {i : Instr} (h : Scratchwork i) {key : Nat} (hkey : key ≠ regR10.key) :
    Spares key i := by
  cases h with
  | temp work => exact work.spares hkey
  | slot op offset t output => exact ⟨.inl op, .inl ⟨offset, t, output⟩⟩

/-- A line that gives one of some registers a value. -/
structure Fills (dests : List Machine.Place) (i : Instr) : Prop where
  op : i.op = .move ∨ i.op = .lea ∨ i.op = .clr
  output : ∃ r, i.output = some (.reg r) ∧ r.place ∈ dests ∧ r.key ≠ regRsp.key

theorem Fills.spares {dests : List Machine.Place} {i : Instr} (h : Fills dests i) {key : Nat}
    (hkey : ∀ r : Reg, r.place ∈ dests → r.key ≠ key) : Spares key i := by
  obtain ⟨r, hout, hr, -⟩ := h.output
  exact ⟨by have := h.op; tauto, .inr ⟨r, hout, hkey r hr⟩⟩

section Steps

variable {cx : Context} {s s' : State} {a : Operand}

theorem hasPush_eq {direct : Bool} {s1 : State} (h : hasPush cx a s = .ok (direct, s1)) :
    s1 = s ∧ (direct = false → ∀ r, a = .reg r → r.is regR10 = false) := by
  cases a with
  | var v =>
    obtain ⟨l, s2, hloc, hpure⟩ := run_bind.mp h
    cases hpure
    exact ⟨(locate?_of_locate hloc).1, fun _ r hr => by cases hr⟩
  | reg r =>
    cases h
    refine ⟨rfl, fun hcls r' hr => ?_⟩
    cases hr
    have hfloat : r.cls = .float := by
      cases hkind : r.cls with
      | int => simp [hkind] at hcls
      | float => rfl
    have hkey : r.key = 256 + r.index.toNat := by rw [Reg.key, hfloat]
    have hne : r.key ≠ regR10.key := by
      rw [hkey, show regR10.key = 10 from rfl]
      omega
    exact beq_eq_false_iff_ne.mpr hne
  | _ =>
    cases h
    exact ⟨rfl, fun _ r hr => by cases hr⟩

/-- What is moved to the temporary register for an argument. The address of a string is there
already. -/
theorem argSource_cases {d : Draft}
    (h : source cx .first false (.of (.make .move (some a) none none)) s = .ok (d, s')) :
    SameFrame s.closure s'.closure ∧ ∃ pre, s'.out = s.out ++ pre ∧ (∀ j ∈ pre, TempWork j) ∧
      ((∃ o, d.instr.first = some o ∧
          ((∀ r, a = .reg r → r.is regR10 = false) → ∀ r, o = .reg r → r.is regR10 = false)) ∨
        ∃ t, d.instr.first = some (.reg (tempReg t))) := by
  obtain ⟨-, hsame, -⟩ := appends_source_free cx rfl false s d s' h
  refine ⟨hsame, ?_⟩
  unfold source at h
  cases a with
  | var v =>
    obtain ⟨l, s1, hloc, hpure⟩ := run_bind.mp h
    cases hpure
    obtain ⟨rfl, -⟩ := locate?_of_locate hloc
    exact ⟨[], by simp, by simp, .inl ⟨_, rfl, fun h => h⟩⟩
  | imm l =>
    cases l with
    | float w x =>
      obtain ⟨y, s1, h1, hpure⟩ := run_bind.mp h
      cases h1
      cases hpure
      exact ⟨[], by simp, by simp, .inl ⟨_, rfl, fun _ r hr => by cases hr⟩⟩
    | string bytes =>
      obtain ⟨y, s1, h1, h⟩ := run_bind.mp h
      cases h1
      rw [reserveTemp_of_free cx rfl] at h
      cases h
      exact ⟨_, rfl, List.forall_mem_singleton.mpr ⟨.inr (.inl rfl), _, rfl⟩, .inr ⟨.str, rfl⟩⟩
    | _ =>
      cases h
      exact ⟨[], by simp, by simp, .inl ⟨_, rfl, fun h => h⟩⟩
  | indirect base index scale disp t =>
    obtain ⟨⟨pre, hpre, hwork⟩, -, ⟨b, x, f, k, hget⟩, -⟩ :=
      appends_address_free cx rfl base index scale disp t s d s' h
    exact ⟨pre, hpre, hwork, .inl ⟨_, hget, fun _ r hr => by cases hr⟩⟩
  | _ =>
    cases h
    exact ⟨[], by simp, by simp, .inl ⟨_, rfl, fun h => h⟩⟩

/-- How a stack argument is pushed: at once, or from the temporary register. It is moved there,
unless it is the address of a string, which is there already. -/
inductive ArgPushed (cx : Context) (a : Operand) (s : State) : State → Prop
  | direct : ArgPushed cx a s { s with
      out := s.out ++ [⟨.push, some a, none, none, none, cx.instr.pos⟩] }
  | moved {d : Draft} {s' : State} {o : Operand}
      (brought : source cx .first false (.of (.make .move (some a) none none)) s = .ok (d, s'))
      (first : d.instr.first = some o) :
      ArgPushed cx a s { s' with
        out := s'.out ++ [⟨.move, some o, none, none, some (.reg (tempReg (d.typeAt .first))),
          cx.instr.pos⟩, ⟨.push, some (.reg regR10), none, none, none, cx.instr.pos⟩] }
  | there {d : Draft} {s' : State} {t : Ty}
      (brought : source cx .first false (.of (.make .move (some a) none none)) s = .ok (d, s'))
      (first : d.instr.first = some (.reg (tempReg t))) :
      ArgPushed cx a s { s' with
        out := s'.out ++ [⟨.push, some (.reg regR10), none, none, none, cx.instr.pos⟩] }

theorem argPushed_of_pushArg (h : pushArg cx a s = .ok ((), s')) : ArgPushed cx a s s' := by
  unfold pushArg at h
  obtain ⟨direct, s1, h1, h⟩ := run_bind.mp h
  obtain ⟨rfl, hother⟩ := hasPush_eq h1
  cases direct with
  | true =>
    cases h
    exact .direct
  | false =>
    obtain ⟨d, s2, h2, h⟩ := run_bind.mp h
    obtain ⟨-, -, -, -, ⟨o, ho, hplain⟩ | ⟨t, htaken⟩⟩ := argSource_cases h2
    · have hmoved : s' = { s2 with out := s2.out ++ [⟨.move, some o, none, none,
          some (.reg (tempReg (d.typeAt .first))), cx.instr.pos⟩,
          ⟨.push, some (.reg regR10), none, none, none, cx.instr.pos⟩] } := by
        rw [ho] at h
        cases o with
        | reg r =>
          simp only [hplain (hother rfl) r rfl] at h
          cases h
          simp
        | _ =>
          cases h
          simp
      rw [hmoved]
      exact .moved h2 ho
    · rw [htaken] at h
      cases h
      exact .there h2 htaken

/-- A push is the last line for a stack argument. Those before it are for the temporary register. -/
theorem ArgPushed.code (h : ArgPushed cx a s s') : SameFrame s.closure s'.closure ∧
    ∃ pre o, s'.out = s.out ++ (pre ++ [⟨.push, some o, none, none, none, cx.instr.pos⟩]) ∧
      ∀ i ∈ pre, TempWork i := by
  cases h with
  | direct => exact ⟨.refl _, [], a, rfl, by simp⟩
  | @moved d s2 o brought first =>
    obtain ⟨hsame, pre, hpre, hwork, -⟩ := argSource_cases brought
    refine ⟨hsame, pre ++ [⟨.move, some o, none, none, some (.reg (tempReg (d.typeAt .first))),
      cx.instr.pos⟩], .reg regR10, by simp [hpre], List.forall_mem_append.mpr ⟨hwork, ?_⟩⟩
    exact List.forall_mem_singleton.mpr ⟨.inl rfl, _, rfl⟩
  | there brought =>
    obtain ⟨hsame, pre, hpre, hwork, -⟩ := argSource_cases brought
    exact ⟨hsame, pre, .reg regR10, by simp [hpre], hwork⟩

/-- What becomes of an argument with a place before the simultaneous assignment. A float and a
string are placed in the data, and the address of a memory operand is folded: then a move is left.
If the address takes the temporary register, the argument is loaded, and no other argument may read
where it goes to. -/
inductive Directed (cx : Context) (all : List Move) (index : Nat) (dst : Operand) (s : State) :
    Operand → Option Move → State → Prop
  | kept {a : Operand} (literal : ∀ l, a = .imm l → ∃ v, l.int? = some v)
      (memory : ∀ base part scale disp t, a ≠ .indirect base part scale disp t) :
      Directed cx all index dst s a (some ⟨dst, a, false⟩) s
  | float {w : FloatWidth} {x : Float.Binary64} {y : Symbol} {s' : State}
      (placed : materialize (.float w x) s = .ok (y, s')) :
      Directed cx all index dst s (.imm (.float w x)) (some ⟨dst, .symbol y, false⟩) s'
  | string {bytes : List UInt8} {y : Symbol} {s' : State}
      (placed : materialize (.string bytes) s = .ok (y, s')) :
      Directed cx all index dst s (.imm (.string bytes)) (some ⟨dst, .symbol y, true⟩) s'
  | folded {base part : Option Operand} {scale : UInt8} {disp : Int64} {t : Ty}
      (here : needsTemp s.closure.locations (.indirect base part scale disp t) = false) :
      Directed cx all index dst s (.indirect base part scale disp t)
        (some ⟨dst, folded base part scale disp t, false⟩) s
  | loaded {base part : Option Operand} {scale : UInt8} {disp : Int64} {t : Ty} {d : Draft}
      {s' : State} (needs : needsTemp s.closure.locations (.indirect base part scale disp t) = true)
      (address : address cx .first base part scale disp t
        (.of (.make .move (some (.indirect base part scale disp t)) none none)) s = .ok (d, s'))
      (unread : (regKey? s.closure.locations dst).bind
        (fun key => conflicting? s.closure.locations key index all) = none) :
      Directed cx all index dst s (.indirect base part scale disp t) none
        { s' with
          out := s'.out ++ [⟨.move, some (d.instr.first.getD (.indirect base part scale disp t)),
            none, none, some dst, cx.instr.pos⟩] }

theorem directed_of_directArg {all : List Move} {index : Nat} {dst : Operand} {left : Option Move}
    (h : directArg cx all index ⟨dst, a, false⟩ s = .ok (left, s')) :
    Directed cx all index dst s a left s' := by
  unfold directArg at h
  cases a with
  | imm l =>
    cases l with
    | float w x =>
      obtain ⟨y, s1, h1, h⟩ := run_bind.mp h
      cases h
      exact .float h1
    | string bytes =>
      obtain ⟨y, s1, h1, h⟩ := run_bind.mp h
      cases h
      exact .string h1
    | _ =>
      cases h
      refine .kept ?_ (by simp)
      rintro _ ⟨⟩
      exact ⟨_, rfl⟩
  | var v =>
    obtain ⟨l, s1, h1, h⟩ := run_bind.mp h
    have hs := (locate?_of_locate h1).1
    cases h
    rw [hs]
    exact .kept (by simp) (by simp)
  | indirect base part scale disp t =>
    obtain ⟨d, s1, h1, h⟩ := run_bind.mp h
    rcases address_cases h1 with ⟨here, hd, hs⟩ | ⟨needs, hholder⟩
    · rw [hd] at h
      cases h
      rw [hs]
      exact .folded here
    · rw [hholder] at h
      obtain ⟨_, _, ⟨⟩, h⟩ := run_bind.mp h
      obtain ⟨-, hsame, -⟩ := appends_address_free cx rfl base part scale disp t s d s1 h1
      cases hc : (regKey? s1.closure.locations dst).bind fun key =>
          conflicting? s1.closure.locations key index all with
      | some o =>
        simp only [hc] at h
        cases h
      | none =>
        simp only [hc] at h
        cases h
        exact .loaded needs h1 (hsame.locations ▸ hc)
  | _ =>
    cases h
    exact .kept (by simp) (by simp)

theorem Directed.sameFrame {all : List Move} {index : Nat} {dst : Operand} {left : Option Move}
    (h : Directed cx all index dst s a left s') : SameFrame s.closure s'.closure := by
  cases h with
  | kept => exact .refl _
  | float placed => exact (appends_materialize (P := TempWork) _ s _ s' placed).2.1
  | string placed => exact (appends_materialize (P := TempWork) _ s _ s' placed).2.1
  | folded => exact .refl _
  | @loaded base part scale disp t d s1 _ address =>
    exact (appends_address_free cx rfl base part scale disp t s d s1 address).2.1

theorem Directed.dst {all : List Move} {index : Nat} {dst : Operand} {left : Option Move}
    (h : Directed cx all index dst s a left s') : ∀ m, left = some m → m.dst = dst := by
  rintro m rfl
  cases h <;> rfl

/-- The address of what is called goes to the temporary register. -/
theorem appends_callee : Appends TempWork (callee cx) fun _ => True := by
  unfold callee
  split
  · exact appends_fail cx _
  · exact appends_pure trivial
  · refine appends_bind (appends_source_free cx rfl false) fun d _ => ?_
    exact appends_bind (appends_keep ⟨.inl rfl, .i64, rfl⟩) fun _ _ => appends_pure trivial

/-- The number of float arguments goes to rax. -/
theorem appends_countFills (cx : Context) (n : Nat) :
    Appends (Fills [regRax.place]) (countFloats cx n) fun _ => True := by
  unfold countFloats
  split
  · exact appends_keep ⟨by simp, _, rfl, List.mem_singleton.mpr rfl, by decide⟩
  · exact appends_keep ⟨by simp, _, rfl, List.mem_singleton.mpr rfl, by decide⟩

/-- A line that stores a result: its output is the one that it was given, or made for that. -/
def StoreLine (output : Option Operand) (i : Instr) : Prop :=
  i.op = .move ∧ (i.output = output ∨ ∃ o, i.output = some o ∧ Made o)

theorem appends_store (value : Reg) (output : Option Operand) :
    Appends (fun i => Scratchwork i ∨ StoreLine output i) (store cx value output) fun _ =>
      True := by
  unfold store
  refine appends_bind ((appends_dest cx .output _).mono (fun _ => .inl) fun _ h => h) fun d hd => ?_
  exact appends_keep (.inr ⟨hd.op, hd.output⟩)

end Steps

/-! ## The code of a call -/

/-- The result of a call goes where it belongs. -/
def storeResult (cx : Context) : LowerM Unit :=
  match cx.instr.output.map fun o => returnReg o.ty with
  | some r => store cx r cx.instr.output
  | none => pure ()

/-- What follows a call: the stack is given back and the result is stored. -/
def afterCall (cx : Context) (bytes : Nat) : LowerM Unit := do
  if bytes > 0 then adjustStack cx .add (Int64.ofNat bytes)
  storeResult cx

/-- The call of a function with arguments in the given registers. -/
def callInstr (cx : Context) (f : Operand) (used : List Operand) : Instr :=
  ⟨cx.instr.op, some f, some (.list used), none,
    (cx.instr.output.map fun o => returnReg o.ty).map fun r => .list [.reg r], cx.instr.pos⟩

/-- The function follows the variadic convention. -/
def isVariadic (cx : Context) (f : Operand) : Bool :=
  match f with
  | .symbol s => cx.variadic.contains s.name
  | _ => false

/-- The registers that a call uses. -/
def usedRegs (cx : Context) (st : ArgState) (f : Operand) : List Operand :=
  st.moves.map Move.dst ++ if isVariadic cx f then [.reg regRax] else []

/-- What follows the simultaneous assignment: the call itself, and what comes after it. -/
def finishCall (cx : Context) (st : ArgState) (f : Operand) (bytes : Nat) : LowerM Unit := do
  if isVariadic cx f then countFloats cx st.args.floats
  keep (callInstr cx f (usedRegs cx st f))
  afterCall cx bytes

/-- A call after the padding of the stack. -/
def callBody (cx : Context) (st : ArgState) (bytes : Nat) : LowerM Unit := do
  each (pushArg cx) st.stack.reverse
  let moves ← directArgs cx st.moves
  let f ← callee cx
  parallel cx moves
  finishCall cx st f bytes

/-- The places that a call hands out to its arguments. -/
def argState (i : Instr) : ArgState := (callArgs i).foldl assignArg ⟨⟨0, 0⟩, [], []⟩

theorem length_stack_le (i : Instr) : (argState i).stack.length ≤ (callArgs i).length := by
  have assigned : Assigned (callArgs i) (argState i) := assigned_foldl _
  simpa using assigned.slots.trans_le (overflow_le _)

/-- The bytes that a call leaves free above the arguments on the stack. -/
def argPadding (st : ArgState) : Nat := alignUp (8 * st.stack.length) 16 - 8 * st.stack.length

/-- The bytes that a call takes on the stack. -/
def argRoom (st : ArgState) : Nat := 8 * st.stack.length + argPadding st

/-- The room is whole pairs of words. -/
theorem argRoom_spec (st : ArgState) :
    16 ∣ argRoom st ∧ argPadding st < 16 ∧ argRoom st = 8 * st.stack.length + argPadding st := by
  have halign : alignUp (8 * st.stack.length) 16 = (8 * st.stack.length + 15) / 16 * 16 := by
    unfold alignUp
    rw [if_neg (by decide)]
    rfl
  have hpadding : argPadding st = (8 * st.stack.length + 15) / 16 * 16 - 8 * st.stack.length := by
    rw [argPadding, halign]
  refine ⟨⟨(8 * st.stack.length + 15) / 16, ?_⟩, ?_, rfl⟩
  · rw [argRoom, hpadding]
    omega
  · omega

/-- The line that pads the stack, if that is needed. -/
def padding (cx : Context) (st : ArgState) : List Instr :=
  if argPadding st > 0 then
    [⟨.sub, some (.reg regRsp), some (.imm (.ofInt .i64 (Int64.ofNat (argPadding st)))), none,
      some (.reg regRsp), cx.instr.pos⟩]
  else []

theorem call_eq (cx : Context) : call cx =
    let st := argState cx.instr
    if argPadding st > 0 then
      adjustStack cx .sub (Int64.ofNat (argPadding st)) >>= fun _ => callBody cx st (argRoom st)
    else callBody cx st (argRoom st) := rfl

/-- The steps of a call: the arguments on the stack are pushed, memory arguments are loaded, what is
called is found, the other arguments are assigned at once, and the call follows. -/
structure CallRun (cx : Context) (s s' : State) (st : ArgState)
    (padded pushed loaded aimed moved : State) (moves : List Move) (f : Operand)
    (count rest : List Instr) : Prop where
  start : padded = { s with out := s.out ++ padding cx st }
  push : each (pushArg cx) st.stack.reverse padded = .ok ((), pushed)
  load : directArgs cx st.moves pushed = .ok (moves, loaded)
  aim : callee cx loaded = .ok (f, aimed)
  assign : parallel cx moves aimed = .ok ((), moved)
  finish : finishCall cx st f (argRoom st) moved = .ok ((), s')
  after : ∃ called, called.out = moved.out ++ count ++ [callInstr cx f (usedRegs cx st f)] ∧
    afterCall cx (argRoom st) called = .ok ((), s')
  code : s'.out = moved.out ++ count ++ callInstr cx f (usedRegs cx st f) :: rest
  counts : ∀ i ∈ count, Fills [regRax.place] i

theorem CallRun.spared {cx : Context} {s s' : State} {st : ArgState}
    {padded pushed loaded aimed moved : State} {moves : List Move} {f : Operand}
    {count rest : List Instr}
    (run : CallRun cx s s' st padded pushed loaded aimed moved moves f count rest) (key : Nat)
    (hkey : key ≠ regRax.key) : ∀ i ∈ count, Spares key i := by
  refine fun i hi => (run.counts i hi).spares fun r hr => ?_
  have hplace := List.mem_singleton.mp hr
  rw [(Reg.place_eq_iff r regRax).mp hplace]
  exact hkey.symm

theorem appends_afterCall (cx : Context) (bytes : Nat) :
    Appends (fun _ => True) (afterCall cx bytes) fun _ => True := by
  unfold afterCall storeResult
  refine appends_when (appends_keep trivial) ?_
  split
  · exact (appends_store _ _).mono (fun _ _ => trivial) fun _ h => h
  · exact appends_pure trivial

theorem exists_callRun {cx : Context} {s s' : State} (h : call cx s = .ok ((), s')) :
    ∃ padded pushed loaded aimed moved moves f count rest,
      CallRun cx s s' (argState cx.instr) padded pushed loaded aimed moved moves f count rest := by
  rw [call_eq] at h
  dsimp only at h
  set st := argState cx.instr
  obtain ⟨padded, hstart, h⟩ : ∃ padded : State, padded = { s with out := s.out ++ padding cx st } ∧
      callBody cx st (argRoom st) padded = .ok ((), s') := by
    unfold padding
    split_ifs at h ⊢
    · obtain ⟨u, padded, h1, h⟩ := run_bind.mp h
      cases h1
      exact ⟨_, rfl, h⟩
    · exact ⟨s, by simp, h⟩
  unfold callBody at h
  obtain ⟨u, pushed, hpush, h⟩ := run_bind.mp h
  obtain ⟨moves, loaded, hload, h⟩ := run_bind.mp h
  obtain ⟨f, aimed, haim, h⟩ := run_bind.mp h
  obtain ⟨u', moved, hassign, hfinish⟩ := run_bind.mp h
  have h := hfinish
  unfold finishCall at h
  have hlast : ∀ counted : State,
      (keep (callInstr cx f (usedRegs cx st f)) >>= fun _ => afterCall cx (argRoom st)) counted =
        .ok ((), s') →
      (∃ called, called.out = counted.out ++ [callInstr cx f (usedRegs cx st f)] ∧
        afterCall cx (argRoom st) called = .ok ((), s')) ∧
      ∃ rest, s'.out = counted.out ++ callInstr cx f (usedRegs cx st f) :: rest := by
    intro counted h
    obtain ⟨u'', called, h1, h2⟩ := run_bind.mp h
    cases h1
    obtain ⟨⟨rest, hrest, -⟩, -, -⟩ := appends_afterCall cx (argRoom st) _ _ _ h2
    exact ⟨⟨{ counted with out := _ }, rfl, h2⟩, rest, by rw [hrest]; simp⟩
  by_cases hv : isVariadic cx f = true
  · rw [if_pos hv] at h
    obtain ⟨u'', counted, hcount, h⟩ := run_bind.mp h
    obtain ⟨⟨called, hcalled, hafter⟩, rest, hrest⟩ := hlast counted h
    obtain ⟨⟨count, hcode, hcounts⟩, -, -⟩ := appends_countFills cx _ _ _ _ hcount
    exact ⟨padded, pushed, loaded, aimed, moved, moves, f, count, rest, hstart, hpush, hload, haim,
      hassign, hfinish, ⟨called, by rw [hcalled, hcode], hafter⟩, by rw [hrest, hcode], hcounts⟩
  · rw [if_neg hv] at h
    obtain ⟨⟨called, hcalled, hafter⟩, rest, hrest⟩ := hlast moved h
    exact ⟨padded, pushed, loaded, aimed, moved, moves, f, [], rest, hstart, hpush, hload, haim,
      hassign, hfinish, ⟨called, by simp [hcalled], hafter⟩, by simp [hrest], by simp⟩

/-! ## What the code of a call leaves alone -/

/-- The move goes into another register than the one with the key. -/
def Elsewhere (key : Nat) (m : Move) : Prop := ∃ r, m.dst = .reg r ∧ r.key ≠ key

section Caller

variable {cx : Context} {s s' : State} {key : Nat}

theorem appends_directArg (hkey : key ≠ regR10.key) {all : List Move} {index : Nat} {a : Operand}
    {r : Reg} (hr : r.key ≠ key) :
    Appends (Spares key) (directArg cx all index ⟨.reg r, a, false⟩) fun left =>
      ∀ m, left = some m → Elsewhere key m := by
  intro s left s' h
  have handled := directed_of_directArg h
  refine ⟨?_, handled.sameFrame, fun m hm => ⟨r, handled.dst m hm, hr⟩⟩
  cases handled with
  | kept => exact ⟨[], by simp, by simp⟩
  | folded => exact ⟨[], by simp, by simp⟩
  | float placed => exact (appends_materialize _ s _ s' placed).1
  | string placed => exact (appends_materialize _ s _ s' placed).1
  | @loaded base part scale disp t d s1 _ address =>
    obtain ⟨⟨pre, hpre, hwork⟩, -, -⟩ :=
      appends_address_free cx rfl base part scale disp t s d s1 address
    refine ⟨_, by rw [hpre, List.append_assoc], fun i hi => ?_⟩
    rcases List.mem_append.mp hi with hi | hi
    · exact (hwork i hi).spares hkey
    · obtain rfl := List.mem_singleton.mp hi
      exact ⟨.inl rfl, .inr ⟨r, rfl, hr⟩⟩

/-- Arguments in registers, as the moves are before any is done. -/
def Plain (m : Move) : Prop := ∃ r a, m = ⟨.reg r, a, false⟩

theorem appends_directArgs_of (hkey : key ≠ regR10.key) {all : List Move}
    {moves : List (Move × Nat)} (h : ∀ p ∈ moves, Plain p.1 ∧ Elsewhere key p.1) :
    Appends (Spares key) (moves.mapM fun p => directArg cx all p.2 p.1) fun lefts =>
      ∀ left ∈ lefts, ∀ m, left = some m → Elsewhere key m := by
  refine appends_mapM fun p hp => ?_
  obtain ⟨⟨r, a, heq⟩, r', hdst, hne⟩ := h p hp
  rw [heq] at hdst ⊢
  cases hdst
  exact appends_directArg hkey hne

/-- The simultaneous assignment spares a register that no move goes to. -/
theorem appends_assignment (hxmm : key ≠ regXmm13.key) {moves : List Move}
    (h : ∀ m ∈ moves, Elsewhere key m) :
    Appends (Spares key) (parallel cx moves) fun _ => True := by
  refine appends_parallel cx (fun m hm op src hop => ?_) fun src =>
    ⟨by simp, .inr ⟨_, rfl, hxmm.symm⟩⟩
  obtain ⟨r, hdst, hne⟩ := h m hm
  refine ⟨by tauto, .inr ⟨r, ?_, hne⟩⟩
  rw [hdst]

theorem directArgs_eq (moves : List Move) : directArgs cx moves = (do
    let lefts ← moves.zipIdx.mapM fun p => directArg cx moves p.2 p.1
    pure (lefts.filterMap id)) := rfl

/-- The code after the pushes, up to the call, spares what no argument goes to. -/
theorem CallRun.spares {st : ArgState} {padded pushed loaded aimed moved : State}
    {moves : List Move} {f : Operand} {count rest : List Instr}
    (run : CallRun cx s s' st padded pushed loaded aimed moved moves f count rest)
    (hplain : ∀ m ∈ st.moves, Plain m ∧ Elsewhere key m)
    (hkey : key ≠ regRax.key ∧ key ≠ regR10.key ∧ key ≠ regXmm13.key) :
    SameFrame pushed.closure moved.closure ∧
      ∃ between, moved.out ++ count = pushed.out ++ between ∧ ∀ i ∈ between, Spares key i := by
  obtain ⟨hrax, hr10, hxmm⟩ := hkey
  have hload := run.load
  rw [directArgs_eq] at hload
  obtain ⟨lefts, s1, hmap, h⟩ := run_bind.mp hload
  cases h
  have hzip : ∀ p ∈ st.moves.zipIdx, Plain p.1 ∧ Elsewhere key p.1 := fun p hp =>
    hplain p.1 (List.fst_mem_of_mem_zipIdx hp)
  obtain ⟨⟨code1, hcode1, hspares1⟩, hsame1, hlefts⟩ := appends_directArgs_of hr10 hzip _ _ _ hmap
  obtain ⟨⟨code2, hcode2, hspares2⟩, hsame2, -⟩ := appends_callee _ _ _ run.aim
  have hmoves : ∀ m ∈ lefts.filterMap id, Elsewhere key m := by
    intro m hm
    obtain ⟨left, hleft, heq⟩ := List.mem_filterMap.mp hm
    exact hlefts left hleft m heq
  obtain ⟨⟨code3, hcode3, hspares3⟩, hsame3, -⟩ := appends_assignment hxmm hmoves _ _ _ run.assign
  refine ⟨(hsame1.trans hsame2).trans hsame3, code1 ++ code2 ++ code3 ++ count,
    by simp [hcode3, hcode2, hcode1], fun i hi => ?_⟩
  simp only [List.mem_append] at hi
  rcases hi with ((hi | hi) | hi) | hi
  · exact hspares1 i hi
  · exact (hspares2 i hi).spares hr10
  · exact hspares3 i hi
  · exact run.spared key hrax i hi

end Caller

end Backend.Lowering
