-- The names that a build gives to files: the files of one directory are told apart by their names,
-- and modules with different object files share no name at all.
import Backend.Build.Basic
import Backend.Proofs.Text.Numeral
import Mathlib.Data.List.Basic

namespace Backend

namespace Path

/-- A text that names a file of a directory. -/
structure IsName (name : String) : Prop where
  ne_empty : name ≠ ""
  ne_here : name ≠ "."
  ne_above : name ≠ ".."
  no_slash : '/' ∉ name.toList

theorem push_name {name : String} (h : IsName name) (rooted : Bool) (done : List String) :
    push rooted done name = name :: done := by
  simp [push, h.ne_empty, h.ne_here, h.ne_above]

theorem pieces_name {name : String} (h : IsName name) : pieces name = [name] := by
  simp [pieces, List.splitOn_eq_singleton h.no_slash]

theorem pieces_under {name : String} (h : IsName name) (dir : String) :
    pieces (dir ++ "/" ++ name) = pieces dir ++ [name] := by
  have hsplit : (dir.toList ++ '/' :: name.toList).splitOn '/' =
      dir.toList.splitOn '/' ++ name.toList.splitOn '/' :=
    List.splitOnP_append_cons _ _ (by simp)
  simp [pieces, hsplit, List.splitOn_eq_singleton h.no_slash]

theorem isRooted_under (dir name : String) :
    isRooted (dir ++ "/" ++ name) = isRooted (dir ++ "/") := by
  cases hchars : dir.toList <;> simp [isRooted, hchars]

/-- A file has the parts of its directory above it. -/
theorem parts_under (dir : String) :
    ∃ above, ∀ name, IsName name → parts (dir ++ "/" ++ name) = above ++ [name] := by
  refine ⟨((pieces dir).foldl (push (isRooted (dir ++ "/"))) []).reverse, fun name h => ?_⟩
  simp [parts, isRooted_under, pieces_under h, push_name h]

/-- The text of the parts above a file, with the slash after them. -/
theorem intercalate_under (above : List String) :
    ∃ front, (front = "" ∨ ∃ d, front = d ++ "/") ∧
      ∀ name, "/".intercalate (above ++ [name]) = front ++ name := by
  by_cases hnil : above = []
  · exact ⟨"", .inl rfl, fun name => by simp [hnil]⟩
  · refine ⟨"/".intercalate above ++ "/", .inr ⟨_, rfl⟩, fun name => ?_⟩
    rw [String.intercalate_append_of_ne_nil hnil (by simp), String.intercalate_singleton]

theorem clean_name {name : String} (h : IsName name) : clean name = name := by
  have hrooted : isRooted name = false := by
    unfold isRooted
    cases hchars : name.toList with
    | nil => rfl
    | cons c rest =>
      have hc : c ≠ '/' := fun e => h.no_slash (by simp [hchars, e])
      simpa using hc
  have hparts : parts name = [name] := by simp [parts, pieces_name h, push_name h]
  simp [clean, hrooted, hparts, h.ne_empty]

/-- What stands in front of the names in a directory is the same for all of them, and it ends in a
slash or is empty. -/
theorem join_eq_append (dir : String) :
    ∃ front, (front = "" ∨ ∃ d, front = d ++ "/") ∧
      ∀ name, IsName name → join dir name = front ++ name := by
  obtain ⟨above, habove⟩ := parts_under dir
  obtain ⟨body, hshape, hbody⟩ := intercalate_under above
  have hjoin : ∀ name, IsName name → join dir name =
      if isRooted (dir ++ "/") then "/" ++ (body ++ name) else body ++ name := by
    intro name h
    have hne : body ++ name ≠ "" := by simp [h.ne_empty]
    simp [join, clean, isRooted_under, habove name h, hbody, hne]
  cases hrooted : isRooted (dir ++ "/") with
  | false => exact ⟨body, hshape, fun name h => by simpa [hrooted] using hjoin name h⟩
  | true =>
    refine ⟨"/" ++ body, .inr ?_, fun name h => by
      simpa [hrooted, String.append_assoc] using hjoin name h⟩
    obtain rfl | ⟨d, rfl⟩ := hshape
    · exact ⟨"", by simp⟩
    · exact ⟨"/" ++ d, by simp [String.append_assoc]⟩

/-- The shortest form of the path of a file: what stands in front of its name is that of the
directory. -/
theorem clean_join_eq_append (dir : String) :
    ∃ front, ∀ name, IsName name → clean (join dir name) = front ++ name := by
  obtain ⟨front, rfl | ⟨d, rfl⟩, hfront⟩ := join_eq_append dir
  · refine ⟨"", fun name h => ?_⟩
    rw [hfront name h, String.empty_append, clean_name h]
  · obtain ⟨front, -, hclean⟩ := join_eq_append d
    refine ⟨front, fun name h => ?_⟩
    rw [hfront name h]
    exact hclean name h

/-- Two files of a directory have the same path only if they have the same name. -/
theorem clean_join_inj {dir a b : String} (ha : IsName a) (hb : IsName b) :
    clean (join dir a) = clean (join dir b) ↔ a = b := by
  obtain ⟨front, hfront⟩ := clean_join_eq_append dir
  simp [hfront a ha, hfront b hb]

end Path

namespace Build

/-! ## Object files, listings and temporary files -/

/-- The name that a module gives to its files, before the ending. -/
def stem (ident : String) : String :=
  String.ofList (ident.toList.map fun c => if c == '/' || c == '\\' then '.' else c)

theorem objectName_eq (ident : String) : objectName ident = stem ident ++ ".o" := rfl

theorem dropSuffix_append (s ending : String) : Path.dropSuffix ending (s ++ ending) = s := by
  have hlen : s.length = s.toList.length := String.length_toList.symm
  simp [Path.dropSuffix, hlen]

theorem listingName_eq (ident : String) : listingName ident = stem ident ++ ".lst" := by
  rw [listingName, objectName_eq, dropSuffix_append]

/-- The temporary name of a file, inside its directory. -/
def hiddenName (name : String) (number : Nat) : String := s!".{name}-{number}.tmp"

theorem tempName_eq (dir name : String) (number : Nat) :
    tempName dir name number = Path.join dir (hiddenName name number) := rfl

theorem hiddenName_eq (name : String) (number : Nat) :
    hiddenName name number = "." ++ name ++ "-" ++ toString number ++ ".tmp" := rfl

theorem no_slash_stem (ident : String) : '/' ∉ (stem ident).toList := by
  simp only [stem, String.toList_ofList, List.mem_map, not_exists, not_and]
  intro c _ hc
  split at hc <;> simp_all

@[simp] theorem getLast?_objectName (ident : String) :
    (objectName ident).toList.getLast? = some 'o' := by simp [objectName_eq]

@[simp] theorem getLast?_listingName (ident : String) :
    (listingName ident).toList.getLast? = some 't' := by simp [listingName_eq]

@[simp] theorem getLast?_hiddenName (name : String) (number : Nat) :
    (hiddenName name number).toList.getLast? = some 'p' := by
  rw [hiddenName_eq, String.toList_append, List.getLast?_append]
  rfl

theorem no_slash_objectName (ident : String) : '/' ∉ (objectName ident).toList := by
  simp [objectName_eq, no_slash_stem]

theorem no_slash_listingName (ident : String) : '/' ∉ (listingName ident).toList := by
  simp [listingName_eq, no_slash_stem]

theorem not_mem_numeral {c : Char} (hc : c.isDigit = false) (number : Nat) :
    c ∉ (toString number).toList := by
  intro h
  have hdigit : c.isDigit = true := Text.isDigit_of_mem_decimal (by simpa using h)
  rw [hc] at hdigit
  cases hdigit

theorem no_slash_hiddenName {name : String} (h : '/' ∉ name.toList) (number : Nat) :
    '/' ∉ (hiddenName name number).toList := by
  have := not_mem_numeral (show '/'.isDigit = false by decide) number
  simp_all [hiddenName]

/-- A text without slashes that does not end in a dot is a name. -/
theorem isName_of_getLast? {name : String} {c : Char} (hlast : name.toList.getLast? = some c)
    (hc : c ≠ '.') (hslash : '/' ∉ name.toList) : Path.IsName name := by
  refine ⟨?_, ?_, ?_, hslash⟩ <;> rintro rfl <;> simp at hlast <;> exact hc hlast.symm

/-- The names of the files that the job of a module works with. -/
inductive NameOf (ident : String) : String → Prop
  | object : NameOf ident (objectName ident)
  | listing : NameOf ident (listingName ident)
  | hiddenObject (number : Nat) : NameOf ident (hiddenName (objectName ident) number)
  | hiddenListing (number : Nat) : NameOf ident (hiddenName (listingName ident) number)

theorem NameOf.isName {ident name : String} (h : NameOf ident name) : Path.IsName name := by
  cases h with
  | object =>
    exact isName_of_getLast? (getLast?_objectName _) (by decide) (no_slash_objectName ident)
  | listing =>
    exact isName_of_getLast? (getLast?_listingName _) (by decide) (no_slash_listingName ident)
  | hiddenObject number =>
    exact isName_of_getLast? (getLast?_hiddenName _ _) (by decide)
      (no_slash_hiddenName (no_slash_objectName ident) number)
  | hiddenListing number =>
    exact isName_of_getLast? (getLast?_hiddenName _ _) (by decide)
      (no_slash_hiddenName (no_slash_listingName ident) number)

theorem eq_of_append_cons_eq {α : Type} {c : α} {a b x y : List α} (hx : c ∉ x) (hy : c ∉ y)
    (h : a ++ c :: x = b ++ c :: y) : a = b := by
  obtain ⟨d, rfl, hd⟩ | ⟨d, rfl, hd⟩ := List.append_eq_append_iff.mp h
  · cases d with
    | nil => simp
    | cons e d => exact absurd (by simp_all) hx
  · cases d with
    | nil => simp
    | cons e d => exact absurd (by simp_all) hy

/-- A temporary name tells for which file it is. -/
theorem hiddenName_inj {a b : String} {i j : Nat} (h : hiddenName a i = hiddenName b j) :
    a = b := by
  have hlist : a.toList ++ '-' :: ((toString i).toList ++ ".tmp".toList) =
      b.toList ++ '-' :: ((toString j).toList ++ ".tmp".toList) := by
    simpa [hiddenName] using congrArg String.toList h
  have hnumeral (k : Nat) : '-' ∉ (toString k).toList ++ ".tmp".toList := by
    have := not_mem_numeral (show '-'.isDigit = false by decide) k
    simpa using this
  exact String.toList_inj.mp (eq_of_append_cons_eq (hnumeral i) (hnumeral j) hlist)

/-- Modules that work with a file of one name have the same object file. -/
theorem NameOf.same_object {a b name : String} (ha : NameOf a name) (hb : NameOf b name) :
    objectName a = objectName b := by
  -- the ends of the names leave only the pairs of files of the same kind
  have hlast {x y : String} (h : x = y) : x.toList.getLast? = y.toList.getLast? := by rw [h]
  have hlisting {x y : String} (h : listingName x = listingName y) :
      objectName x = objectName y := by
    have hstem : stem x = stem y := by simpa [listingName_eq] using h
    rw [objectName_eq, objectName_eq, hstem]
  generalize hn : name = n at hb
  cases ha <;> cases hb <;> (have hend := hlast hn; simp at hend)
  · exact hn
  · exact hlisting hn
  · exact hiddenName_inj hn
  · exact absurd (hlast (hiddenName_inj hn)) (by simp)
  · exact absurd (hlast (hiddenName_inj hn)) (by simp)
  · exact hlisting (hiddenName_inj hn)

/-! ## The modules of a build -/

theorem nodup_of_checkNames {seen idents : List String} (h : checkNames seen idents = .ok ()) :
    (idents.map objectName).Nodup ∧
      ∀ ident ∈ idents, ∀ other ∈ seen, objectName other ≠ objectName ident := by
  induction idents generalizing seen with
  | nil => simp
  | cons ident rest ih =>
    rw [checkNames] at h
    split at h
    · cases h
    · rename_i hfind
      have hseen : ∀ other ∈ seen, objectName other ≠ objectName ident := by
        simpa using hfind
      obtain ⟨hnodup, hrest⟩ := ih h
      refine ⟨?_, ?_⟩
      · rw [List.map_cons, List.nodup_cons]
        refine ⟨?_, hnodup⟩
        rintro hmem
        obtain ⟨later, hlater, heq⟩ := List.mem_map.mp hmem
        exact hrest later hlater ident List.mem_cons_self heq.symm
      · intro i hi other hother
        rcases List.mem_cons.mp hi with rfl | hi
        · exact hseen other hother
        · exact hrest i hi other (List.mem_cons_of_mem ident hother)

end Build
end Backend
