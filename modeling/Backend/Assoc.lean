-- Tables as lists of pairs, in which a key occurs at most once.

namespace Backend

/-- The table with `v` under the key `k`: in the place of the old entry, or at the end. -/
def assocInsert {α β : Type} [BEq α] (k : α) (v : β) : List (α × β) → List (α × β)
  | [] => [(k, v)]
  | (a, b) :: rest => if a == k then (k, v) :: rest else (a, b) :: assocInsert k v rest

theorem lookup_assocInsert_self {α β : Type} [BEq α] [LawfulBEq α] (k : α) (v : β)
    (t : List (α × β)) : (assocInsert k v t).lookup k = some v := by
  induction t with
  | nil => simp [assocInsert]
  | cons p rest ih =>
    obtain ⟨a, b⟩ := p
    by_cases h : a = k
    · simp [assocInsert, h]
    · have h2 : (k == a) = false := by simpa using fun e => h e.symm
      simp [assocInsert, h, List.lookup_cons, h2, ih]

theorem lookup_assocInsert_ne {α β : Type} [BEq α] [LawfulBEq α] {k k' : α} (h : k' ≠ k) (v : β)
    (t : List (α × β)) : (assocInsert k v t).lookup k' = t.lookup k' := by
  have hk : (k' == k) = false := by simpa using h
  induction t with
  | nil => simp [assocInsert, List.lookup_cons, hk]
  | cons p rest ih =>
    obtain ⟨a, b⟩ := p
    by_cases ha : a = k
    · simp [assocInsert, ha, List.lookup_cons, hk]
    · simp [assocInsert, ha, List.lookup_cons, ih]

end Backend
