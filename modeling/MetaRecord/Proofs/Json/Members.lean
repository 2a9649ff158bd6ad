/-
# `MetaRecord.Proofs.Json.Members` — what an object made from members has

An object is made from members that come one after the other, and a name that
comes again takes a new value.  Its members then stand in the order of their
names, so what was given can no longer be read off them; but looking a name up
is looking for its last member among those that were given.

Main statements: `Members.find?_ofList`, `member?_object_concat` for one member
more, and `member?_object_eq_some_iff` for names that are given once each.
-/
import Mathlib.Data.List.Basic
import Mathlib.Data.List.Induction
import MetaRecord.Json.Basic

namespace MetaRecord.Json

namespace Members

theorem ofList_concat (members : List (String × Json)) (m : String × Json) :
    ofList (members ++ [m]) = insert m.1 m.2 (ofList members) := List.foldl_concat ..

/-- A member that is given several times has the value that is given last. -/
theorem find?_ofList (members : List (String × Json)) (name : String) :
    find? name (ofList members) = (members.reverse.find? fun m => m.1 = name).map (·.2) := by
  induction members using List.reverseRecOn with
  | nil => rfl
  | append_singleton members m ih =>
      rw [ofList_concat, List.reverse_concat, List.find?_cons]
      by_cases hname : m.1 = name
      · subst hname
        rw [find?_insert_self]
        simp
      · rw [find?_insert_of_ne _ _ (Ne.symm hname), ih]
        simp [hname]

/-- A name after all others goes to the end. -/
theorem insert_of_forall_lt {name : String} (value : Json) {m : Members}
    (h : ∀ e ∈ m, e.1 < name) : insert name value m = m ++ [(name, value)] := by
  induction m with
  | nil => rfl
  | cons e rest ih =>
      obtain ⟨n, v⟩ := e
      have hlt : n < name := h (n, v) List.mem_cons_self
      have hne : name ≠ n := fun heq => String.lt_irrefl n (heq ▸ hlt)
      rw [insert, if_neg (String.lt_asymm hlt), if_neg hne,
        ih fun e he => h e (List.mem_cons_of_mem _ he), List.cons_append]

/-- Members that stand in order stay as they are. -/
theorem ofList_of_sorted {m : Members} (h : Sorted m) : ofList m = m := by
  induction m using List.reverseRecOn with
  | nil => rfl
  | append_singleton m e ih =>
      obtain ⟨hm, -, hlt⟩ := List.pairwise_append.mp h
      rw [ofList_concat, ih hm]
      exact insert_of_forall_lt e.2 fun d hd => hlt d hd e (List.mem_singleton_self e)

theorem find?_eq_none_iff {name : String} {m : Members} :
    find? name m = none ↔ name ∉ m.map (·.1) := by
  induction m with
  | nil => simp [find?]
  | cons e rest ih =>
      obtain ⟨n, v⟩ := e
      rw [find?, List.map_cons, List.mem_cons]
      by_cases hname : n = name
      · simp [hname]
      · rw [if_neg hname, ih, not_or, and_iff_right (Ne.symm hname)]

end Members

theorem member?_object (members : List (String × Json)) (name : String) :
    (object members).member? name = (members.reverse.find? fun m => m.1 = name).map (·.2) :=
  Members.find?_ofList members name

theorem member?_object_concat (members : List (String × Json)) (m : String × Json) (name : String) :
    (object (members ++ [m])).member? name =
      if m.1 = name then some m.2 else (object members).member? name := by
  rw [member?_object, member?_object, List.reverse_concat, List.find?_cons]
  by_cases hname : m.1 = name
  · simp [hname]
  · simp [hname]

/-- An object has the members that were given, if no name was given twice. -/
theorem member?_object_eq_some_iff {members : List (String × Json)}
    (h : (members.map (·.1)).Nodup) {name : String} {value : Json} :
    (object members).member? name = some value ↔ (name, value) ∈ members := by
  induction members using List.reverseRecOn with
  | nil => simp [member?_object]
  | append_singleton members m ih =>
      rw [List.map_append, List.nodup_append] at h
      obtain ⟨hnodup, -, hfresh⟩ := h
      rw [member?_object_concat, List.mem_append, List.mem_singleton]
      by_cases hname : m.1 = name
      · subst hname
        have hnone : (m.1, value) ∉ members := fun hmem =>
          hfresh m.1 (List.mem_map.mpr ⟨_, hmem, rfl⟩) m.1 (List.mem_singleton_self m.1) rfl
        rw [if_pos rfl, or_iff_right hnone, Option.some.injEq]
        exact ⟨fun heq => heq ▸ rfl, fun heq => congrArg Prod.snd heq.symm⟩
      · rw [if_neg hname, ih hnodup, or_iff_left]
        exact fun heq => hname (congrArg Prod.fst heq).symm

end MetaRecord.Json
