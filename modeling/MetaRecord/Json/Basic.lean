/-
# `MetaRecord.Json.Basic` — JSON values

A value is kept in the form it is printed in: an object's members stand in
the order of their names, by code point, and no name stands twice.  Objects
are built by `insert`, which keeps both; setting a member again replaces it.

Main statements: `find?_insert_self` and `find?_insert_of_ne` (what setting a
member does to every name), and `sorted_insert` (names stay strictly
ascending).
-/
import MetaRecord.Decimal.Binary64

namespace MetaRecord

/-- A JSON value.  Numbers are whole, or finite and in double precision. -/
inductive Json where
  | null
  | bool (b : Bool)
  | int (n : Int)
  | float (x : Decimal.Binary64)
  | str (s : String)
  | arr (items : List Json)
  | obj (members : List (String × Json))
deriving Repr

namespace Json

abbrev Members := List (String × Json)

namespace Members

/-- The members with the one named `name` set to `value`. -/
def insert (name : String) (value : Json) : Members → Members
  | [] => [(name, value)]
  | (n, v) :: rest =>
    if name < n then (name, value) :: (n, v) :: rest
    else if name = n then (name, value) :: rest
    else (n, v) :: insert name value rest

/-- The value of the member with the given name. -/
def find? (name : String) : Members → Option Json
  | [] => none
  | (n, v) :: rest => if n = name then some v else find? name rest

/-- The members given one after another; of one name the last stays. -/
def ofList (members : List (String × Json)) : Members :=
  members.foldl (fun m (name, value) => insert name value m) []

/-- Names are strictly ascending. -/
def Sorted (m : Members) : Prop := m.Pairwise fun a b => a.1 < b.1

theorem find?_insert_self (name : String) (value : Json) (m : Members) :
    find? name (insert name value m) = some value := by
  induction m with
  | nil => simp [insert, find?]
  | cons e rest ih =>
    obtain ⟨n, v⟩ := e
    rw [insert]
    split
    · simp [find?]
    · split
      · simp [find?]
      · rename_i hne
        rw [find?, if_neg (fun h => hne h.symm), ih]

theorem find?_insert_of_ne {name other : String} (value : Json) (m : Members)
    (h : other ≠ name) : find? other (insert name value m) = find? other m := by
  induction m with
  | nil => simp [insert, find?, h.symm]
  | cons e rest ih =>
    obtain ⟨n, v⟩ := e
    rw [insert]
    split
    · rw [find?, if_neg h.symm]
    · split
      · rename_i hn
        subst hn
        rw [find?, find?, if_neg h.symm, if_neg h.symm]
      · rw [find?, find?, ih]

/-- Every name in the result is the one set or was there before. -/
theorem mem_insert {name : String} {value : Json} {m : Members} {e : String × Json}
    (h : e ∈ insert name value m) : e = (name, value) ∨ e ∈ m := by
  induction m with
  | nil => exact .inl (List.mem_singleton.1 h)
  | cons d rest ih =>
    obtain ⟨n, v⟩ := d
    rw [insert] at h
    split at h
    · exact (List.mem_cons.1 h).imp id id
    · split at h
      · exact (List.mem_cons.1 h).imp id (List.mem_cons_of_mem _)
      · rcases List.mem_cons.1 h with h | h
        · exact .inr (h ▸ List.mem_cons_self)
        · exact (ih h).imp id (List.mem_cons_of_mem _)

theorem sorted_insert {name : String} {value : Json} {m : Members} (h : Sorted m) :
    Sorted (insert name value m) := by
  induction m with
  | nil => exact List.pairwise_singleton _ _
  | cons e rest ih =>
    obtain ⟨n, v⟩ := e
    obtain ⟨hhead, htail⟩ := List.pairwise_cons.1 h
    rw [insert]
    split
    · rename_i hlt
      refine List.pairwise_cons.2 ⟨fun e he => ?_, h⟩
      rcases List.mem_cons.1 he with rfl | he
      · exact hlt
      · exact String.lt_trans hlt (hhead e he)
    · split
      · rename_i hn
        subst hn
        exact List.pairwise_cons.2 ⟨hhead, htail⟩
      · rename_i hnot hne
        have hlt : n < name := by
          rcases Decidable.em (n < name) with h | h
          · exact h
          · exact absurd (String.le_antisymm h hnot) hne
        refine List.pairwise_cons.2 ⟨fun e he => ?_, ih htail⟩
        rcases mem_insert he with rfl | he
        · exact hlt
        · exact hhead e he

theorem sorted_ofList (members : List (String × Json)) : Sorted (ofList members) := by
  suffices h : ∀ m : Members, Sorted m →
      Sorted (members.foldl (fun m (name, value) => insert name value m) m) from
    h [] List.Pairwise.nil
  induction members with
  | nil => exact fun _ h => h
  | cons e rest ih => exact fun m h => ih _ (sorted_insert h)

end Members

/-- The object with the given members; of one name the last stays. -/
def object (members : List (String × Json)) : Json := .obj (Members.ofList members)

/-- The value of a member, if the value is an object that has it. -/
def member? (name : String) : Json → Option Json
  | .obj members => Members.find? name members
  | _ => none

/-- An object with a member set; any other value stays as it is. -/
def setMember (json : Json) (name : String) (value : Json) : Json :=
  match json with
  | .obj members => .obj (Members.insert name value members)
  | other => other

end Json

end MetaRecord
