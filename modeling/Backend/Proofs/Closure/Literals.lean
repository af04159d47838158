-- The literals of a closure: what their keys say about them, the names that are given to them, and
-- the two tables that hold them.
import Backend.Closure.Basic
import Backend.Proofs.Text.Quoted
import Mathlib.Data.List.Nodup
import Mathlib.Data.List.Perm.Subperm

namespace Backend

/-! ## Keys -/

/-- Two texts of one length, as bytes, begin alike only if they are the same. -/
theorem utf8_prefix_inj {s t : String} {p q : List UInt8}
    (hlen : (Text.utf8 s).length = (Text.utf8 t).length) (h : Text.utf8 s ++ p = Text.utf8 t ++ q) :
    s = t ∧ p = q := by
  obtain ⟨hs, hp⟩ := List.append_inj h hlen
  exact ⟨Text.utf8_inj.mp hs, hp⟩

namespace Literal

/-- The mark at the front of a key, which tells strings, the two kinds of floats and integers
apart. -/
def keyMark : Literal → String
  | .string _ => "str:"
  | .float .w32 _ => "f32:"
  | .float .w64 _ => "f64:"
  | .int _ _ => "int:"
  | .bool _ => "int:"

/-- What identifies a literal among those with the same mark. -/
def keyBody : Literal → List UInt8
  | .string bytes => bytes
  | .float .w32 x => Text.utf8 (String.ofList (Text.hexFixed 8 x.toBinary32.toNat))
  | .float .w64 x => Text.utf8 (String.ofList (Text.hexFixed 16 x.bits.toNat))
  | .int _ value => Text.utf8 (toString value.toInt)
  | .bool word => Text.utf8 (toString word.toInt)

theorem key_eq (l : Literal) : l.key = Text.utf8 l.keyMark ++ l.keyBody := by
  cases l with
  | float w x => cases w <;> simp [key, keyMark, keyBody, Text.utf8_append]
  | string bytes => rfl
  | int w value =>
    rw [keyMark, keyBody, ← Text.utf8_append]
    rfl
  | bool word =>
    rw [keyMark, keyBody, ← Text.utf8_append]
    rfl

theorem key_inj {l l' : Literal} :
    l.key = l'.key ↔ l.keyMark = l'.keyMark ∧ l.keyBody = l'.keyBody := by
  have hmark : ∀ l : Literal, (Text.utf8 l.keyMark).length = 4 := by
    intro l
    cases l with
    | float w x => cases w <;> simp only [keyMark, Text.utf8_eq] <;> rfl
    | _ =>
      simp only [keyMark, Text.utf8_eq]
      rfl
  rw [key_eq, key_eq]
  constructor
  · exact utf8_prefix_inj ((hmark l).trans (hmark l').symm)
  · rintro ⟨hm, hb⟩
    rw [hm, hb]

/-- The key of a float or a string determines the bytes of the literal. Integers of different widths
share a key. -/
theorem bytes_eq_of_key_eq {l l' : Literal} (hl : l.int? = none) (h : l.key = l'.key) :
    l.bytes = l'.bytes := by
  obtain ⟨hmark, hbody⟩ := key_inj.mp h
  cases l with
  | string bytes =>
    cases l' with
    | string bytes' =>
      rw [show bytes = bytes' from hbody]
    | float w x => cases w <;> simp [keyMark] at hmark
    | _ => simp [keyMark] at hmark
  | float w x =>
    cases l' with
    | float w' x' =>
      cases w <;> cases w' <;> simp only [keyMark, String.reduceEq] at hmark
      · simp only [keyBody, Text.utf8_inj, String.ofList_inj] at hbody
        have hbits := Text.hexFixed_inj hbody
        have hlt : ∀ n : UInt32, n.toNat < 16 ^ 8 := UInt32.toNat_lt
        rw [Nat.mod_eq_of_lt (hlt _), Nat.mod_eq_of_lt (hlt _)] at hbits
        simp only [bytes, hbits]
      · simp only [keyBody, Text.utf8_inj, String.ofList_inj] at hbody
        have hbits := Text.hexFixed_inj hbody
        have hlt : ∀ n : UInt64, n.toNat < 16 ^ 16 := UInt64.toNat_lt
        rw [Nat.mod_eq_of_lt (hlt _), Nat.mod_eq_of_lt (hlt _)] at hbits
        simp only [bytes, hbits]
    | _ => cases w <;> simp [keyMark] at hmark
  | int w value => simp [int?] at hl
  | bool word => simp [int?] at hl

example : (int .w8 5).key = (int .w16 5).key ∧ (int .w8 5).bytes ≠ (int .w16 5).bytes := by
  decide +kernel

end Literal

/-! ## Names -/

theorem repr_inj {m n : Nat} (h : m.repr = n.repr) : m = n := by
  have hdigits : Nat.toDigits 10 m = Nat.toDigits 10 n := by
    simpa [Nat.repr_eq_ofList_toDigits, String.ofList_inj] using h
  have hm := @Nat.ofDigitChars_ten_toDigits m
  rwa [hdigits, Nat.ofDigitChars_ten_toDigits, eq_comm] at hm

namespace Closure

/-- The candidates for the name of a literal. -/
def candidate (c : Closure) (n : Nat) : String := s!"{c.symbol}.imm.{c.imms.length + n}"

theorem candidate_injective (c : Closure) : Function.Injective c.candidate := by
  intro m n h
  have hrepr : (c.imms.length + m).repr = (c.imms.length + n).repr := by
    simpa [candidate, String.append_right_inj] using h
  have := repr_inj hrepr
  omega

theorem candidate_ne (c : Closure) (n : Nat) : c.candidate n ≠ "" := by
  intro h
  have hlen := congrArg String.length h
  simp [candidate] at hlen

/-- The name of a literal is a candidate that no data has: among one candidate more than there are
data, one is free. -/
theorem freshName_spec (c : Closure) :
    (∃ n, c.freshName = c.candidate n) ∧ c.freshName ∉ c.data.map DataItem.name := by
  have hfresh : c.freshName = ((((List.range (c.data.length + 1)).map c.candidate).find? fun name =>
      !c.data.any fun d => d.name == name).getD "") := rfl
  rw [hfresh]
  cases hfind : ((List.range (c.data.length + 1)).map c.candidate).find? fun name =>
      !c.data.any fun d => d.name == name with
  | some name =>
    obtain ⟨n, -, hn⟩ := List.mem_map.mp (List.mem_of_find?_eq_some hfind)
    have hfree := List.find?_some hfind
    exact ⟨⟨n, hn.symm⟩, by simpa using hfree⟩
  | none =>
    -- Otherwise every candidate would be the name of a datum.
    exfalso
    have hsub : (List.range (c.data.length + 1)).map c.candidate ⊆ c.data.map DataItem.name := by
      intro name hname
      have htaken := List.find?_eq_none.mp hfind name hname
      simpa using htaken
    have hnodup : ((List.range (c.data.length + 1)).map c.candidate).Nodup :=
      List.nodup_range.map c.candidate_injective
    have hlen := (hnodup.subperm hsub).length_le
    rw [List.length_map, List.length_map, List.length_range] at hlen
    omega

theorem freshName_ne (c : Closure) : c.freshName ≠ "" := by
  obtain ⟨⟨n, hn⟩, -⟩ := c.freshName_spec
  rw [hn]
  exact c.candidate_ne n

end Closure

end Backend
