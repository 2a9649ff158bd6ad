/-
# `MetaRecord.Proofs.Version.Canonical` — an index is the normal form of a map

Inserting and removing versions, one by one and in any order, keeps a finite
map from identifiers to headers and metadata.  An index that is edited from
the empty one is determined by that map alone: `Represents` says that its
entries are the bindings of the map and stand in strict order, one edit takes
both sides along, and two indexes that represent one map are equal.

The step that needs an argument is the replacement of a version whose time has
changed.  Its old entry is taken out by identifier, so that the search for the
new place meets only headers that differ from the new one in their identifier,
and such headers are never level.

Main statement: `run_canonical`.
-/
import Mathlib.Data.List.Induction
import Mathlib.Logic.Function.Basic
import MetaRecord.Proofs.Version.Codec
import MetaRecord.Proofs.Version.Order

namespace MetaRecord.Version

/-! ## Edits, and the map they leave behind -/

/-- One edit of an index. -/
inductive Edit where
  | insert (header : Header) (metadata : Bytes)
  | remove (id : Id)

def Edit.id : Edit → Id
  | .insert header _ => header.id
  | .remove id => id

/-- The versions that are bound to identifiers, by header and metadata. -/
abbrev Bindings := Id → Option (Header × Bytes)

namespace Bindings

def edited (m : Bindings) : Edit → Bindings
  | .insert header metadata => Function.update m header.id (some (header, metadata))
  | .remove id => Function.update m id none

/-- The map that a sequence of edits leaves behind, starting from nothing. -/
def of (edits : List Edit) : Bindings := edits.foldl edited fun _ => none

def entry? (m : Bindings) (id : Id) : Option Entry := (m id).map fun b => .new b.1 b.2

theorem edited_of_ne {m : Bindings} {edit : Edit} {id : Id} (h : edit.id ≠ id) :
    m.edited edit id = m id := by
  cases edit with
  | insert header metadata => exact Function.update_of_ne h.symm _ _
  | remove removed => exact Function.update_of_ne h.symm _ _

theorem foldl_of_ne {edits : List Edit} {id : Id} (h : ∀ edit ∈ edits, edit.id ≠ id) :
    ∀ m : Bindings, edits.foldl edited m id = m id := by
  induction edits with
  | nil => exact fun _ => rfl
  | cons edit edits ih =>
      intro m
      rw [List.foldl_cons, ih fun later hlater => h later (List.mem_cons_of_mem _ hlater)]
      exact edited_of_ne (h edit List.mem_cons_self)

theorem exists_insertion {edits : List Edit} {id : Id} {header : Header} {metadata : Bytes}
    (h : of edits id = some (header, metadata)) :
    header.id = id ∧ ∃ before after, edits = before ++ .insert header metadata :: after ∧
      ∀ edit ∈ after, edit.id ≠ id := by
  induction edits using List.reverseRecOn with
  | nil => exact absurd h (by simp [of])
  | append_singleton edits edit ih =>
      have hlast : of (edits ++ [edit]) = (of edits).edited edit := List.foldl_append
      rw [hlast] at h
      by_cases hid : edit.id = id
      · subst hid
        cases edit with
        | insert header' metadata' =>
            rw [edited, Edit.id, Function.update_self] at h
            cases h
            exact ⟨rfl, edits, [], rfl, fun _ h => absurd h List.not_mem_nil⟩
        | remove removed =>
            rw [edited, Edit.id, Function.update_self] at h
            exact absurd h (by simp)
      · rw [edited_of_ne hid] at h
        obtain ⟨hheader, before, after, rfl, hafter⟩ := ih h
        refine ⟨hheader, before, after ++ [edit], by simp, ?_⟩
        intro later hlater
        rcases List.mem_append.mp hlater with hlater | hlater
        · exact hafter later hlater
        · rw [List.mem_singleton.mp hlater]
          exact hid

/-- A version is bound when it was inserted and no later edit was about its
identifier. -/
theorem of_eq_some_iff {edits : List Edit} {id : Id} {header : Header} {metadata : Bytes} :
    of edits id = some (header, metadata) ↔
      header.id = id ∧ ∃ before after, edits = before ++ .insert header metadata :: after ∧
        ∀ edit ∈ after, edit.id ≠ id := by
  refine ⟨exists_insertion, ?_⟩
  rintro ⟨rfl, before, after, rfl, hafter⟩
  rw [of, List.foldl_append, List.foldl_cons, foldl_of_ne hafter]
  exact Function.update_self _ _ _

end Bindings

namespace Index

def edited (index : Index) : Edit → Index
  | .insert header metadata => index.insert (.new header metadata)
  | .remove id => (index.remove id).2

/-- The index that a sequence of edits makes of the empty one. -/
def run (edits : List Edit) : Index := edits.foldl edited empty

/-! ## The invariant -/

/-- The index holds the bindings of `m`, each bound under its own identifier,
newest first. -/
structure Represents (m : Bindings) (index : Index) : Prop where
  revisions : index.revisions = .current
  keyed : ∀ {id b}, m id = some b → b.1.id = id
  bound : ∀ {e}, e ∈ index.entries ↔ m.entry? e.header.id = some e
  ordered : index.entries.Pairwise fun a b => a.header.sortsBefore b.header

variable {m : Bindings} {index : Index}

/-- Where no two entries share an identifier, taking out the first one with it
takes out all of them. -/
theorem mem_eraseP_id {id : Id} {e : Entry} : ∀ {es : List Entry},
    es.Pairwise (fun a b => a.header.id ≠ b.header.id) →
      (e ∈ es.eraseP (fun x => x.header.id = id) ↔ e ∈ es ∧ e.header.id ≠ id) := by
  intro es hes
  induction es with
  | nil => simp
  | cons a es ih =>
      obtain ⟨ha, hes⟩ := List.pairwise_cons.mp hes
      by_cases hid : a.header.id = id
      · rw [List.eraseP_cons_of_pos (by simpa using hid)]
        constructor
        · intro he
          exact ⟨List.mem_cons_of_mem _ he, fun h => ha e he (hid.trans h.symm)⟩
        · rintro ⟨he, hne⟩
          rcases List.mem_cons.mp he with rfl | he
          · exact absurd hid hne
          · exact he
      · rw [List.eraseP_cons_of_neg (by simpa using hid), List.mem_cons, List.mem_cons, ih hes]
        constructor
        · rintro (rfl | ⟨he, hne⟩)
          · exact ⟨Or.inl rfl, hid⟩
          · exact ⟨Or.inr he, hne⟩
        · rintro ⟨rfl | he, hne⟩
          · exact Or.inl rfl
          · exact Or.inr ⟨he, hne⟩

theorem represents_empty : Represents (fun _ => none) empty where
  revisions := rfl
  keyed h := absurd h (by simp)
  bound := ⟨fun h => absurd h List.not_mem_nil, fun h => absurd h (by simp [Bindings.entry?])⟩
  ordered := List.Pairwise.nil

namespace Represents

theorem eq_of_id_eq (h : Represents m index) {a b : Entry} (ha : a ∈ index.entries)
    (hb : b ∈ index.entries) (hid : a.header.id = b.header.id) : a = b := by
  have ha' := h.bound.mp ha
  rw [hid, h.bound.mp hb] at ha'
  exact (Option.some.inj ha').symm

theorem ids_ne (h : Represents m index) :
    index.entries.Pairwise fun a b => a.header.id ≠ b.header.id := by
  refine h.ordered.imp_of_mem ?_
  intro a b ha hb hab hid
  rw [h.eq_of_id_eq ha hb hid] at hab
  exact Header.sortsBefore_irrefl _ hab

theorem find?_eq (h : Represents m index) (id : Id) : index.find? id = m.entry? id := by
  cases hfind : index.find? id with
  | some e =>
      have hid : e.header.id = id :=
        of_decide_eq_true (List.find?_some (p := fun e : Entry => decide (e.header.id = id)) hfind)
      have hbound := h.bound.mp (List.mem_of_find?_eq_some hfind)
      rw [hid] at hbound
      exact hbound.symm
  | none =>
      cases hentry : m.entry? id with
      | none => rfl
      | some e =>
          obtain ⟨b, hb, rfl⟩ := Option.map_eq_some_iff.mp hentry
          have hid : b.1.id = id := h.keyed hb
          have hmem : Entry.new b.1 b.2 ∈ index.entries := by
            rw [h.bound]
            show m.entry? b.1.id = _
            rw [hid, hentry]
          exact absurd (decide_eq_true hid) (List.find?_eq_none.mp hfind _ hmem)

theorem mem_remove (h : Represents m index) {id : Id} {e : Entry} :
    e ∈ (index.remove id).2.entries ↔ e ∈ index.entries ∧ e.header.id ≠ id :=
  mem_eraseP_id h.ids_ne

theorem remove (h : Represents m index) (id : Id) :
    Represents (m.edited (.remove id)) (index.remove id).2 where
  revisions := h.revisions
  keyed {id' b} hb := by
    by_cases hid : id' = id
    · rw [hid, Bindings.edited, Function.update_self] at hb
      exact absurd hb (by simp)
    · rw [Bindings.edited, Function.update_of_ne hid] at hb
      exact h.keyed hb
  bound {e} := by
    rw [h.mem_remove, h.bound]
    simp only [Bindings.entry?, Bindings.edited]
    by_cases hid : e.header.id = id
    · rw [hid, Function.update_self]
      simp
    · rw [Function.update_of_ne hid]
      exact ⟨fun he => he.1, fun he => ⟨he, hid⟩⟩
  ordered := h.ordered.sublist List.eraseP_sublist

/-- A version that is put in stands between the others that sort before it and
those that it sorts before.  No other one is level with it, because none has
its identifier. -/
theorem exists_insert (h : Represents m index) (header : Header) (metadata : Bytes) :
    ∃ front back, (index.remove header.id).2.entries = front ++ back ∧
      (index.insert (.new header metadata)).entries = front ++ .new header metadata :: back ∧
      (∀ x ∈ front, x.header.sortsBefore header) ∧ ∀ x ∈ back, header.sortsBefore x.header := by
  obtain ⟨front, back, hsplit, hinsert, hfront, hback⟩ := Index.exists_insert
    (e := .new header metadata) ((h.remove header.id).ordered.imp Header.sortsBefore_asymm)
  have hothers : (index.remove header.id).2.entries = front ++ back := hsplit
  refine ⟨front, back, hothers, hinsert, hfront, ?_⟩
  intro x hx
  have hx' : x ∈ (index.remove header.id).2.entries := by
    rw [hothers]
    exact List.mem_append_right _ hx
  have hne : header.id ≠ x.header.id := fun hid => (h.mem_remove.mp hx').2 hid.symm
  exact (Header.sortsBefore_or hne).resolve_right (hback x hx)

theorem mem_insert (h : Represents m index) {header : Header} {metadata : Bytes} {e : Entry} :
    e ∈ (index.insert (.new header metadata)).entries ↔
      e = .new header metadata ∨ (e ∈ index.entries ∧ e.header.id ≠ header.id) := by
  obtain ⟨front, back, hsplit, hinsert, -, -⟩ := h.exists_insert header metadata
  rw [hinsert, ← h.mem_remove, hsplit]
  simp only [List.mem_append, List.mem_cons]
  exact or_left_comm

theorem insert (h : Represents m index) (header : Header) (metadata : Bytes) :
    Represents (m.edited (.insert header metadata)) (index.insert (.new header metadata)) where
  revisions := h.revisions
  keyed {id b} hb := by
    simp only [Bindings.edited] at hb
    by_cases hid : id = header.id
    · rw [hid, Function.update_self] at hb
      rw [← Option.some.inj hb, hid]
    · rw [Function.update_of_ne hid] at hb
      exact h.keyed hb
  bound {e} := by
    rw [h.mem_insert, h.bound]
    simp only [Bindings.entry?, Bindings.edited]
    by_cases hid : e.header.id = header.id
    · rw [hid, Function.update_self]
      constructor
      · rintro (rfl | ⟨-, hne⟩)
        · rfl
        · exact absurd rfl hne
      · intro he
        exact Or.inl (Option.some.inj he).symm
    · rw [Function.update_of_ne hid]
      constructor
      · rintro (rfl | he)
        · exact absurd rfl hid
        · exact he.1
      · intro he
        exact Or.inr ⟨he, hid⟩
  ordered := by
    obtain ⟨front, back, hsplit, hinsert, hfront, hback⟩ := h.exists_insert header metadata
    have hordered := (h.remove header.id).ordered
    rw [hsplit] at hordered
    obtain ⟨hfronts, hbacks, hacross⟩ := List.pairwise_append.mp hordered
    rw [hinsert]
    refine List.pairwise_append.mpr ⟨hfronts, List.pairwise_cons.mpr ⟨hback, hbacks⟩, ?_⟩
    intro a ha b hb
    rcases List.mem_cons.mp hb with rfl | hb
    · exact hfront a ha
    · exact hacross a ha b hb

theorem edited (h : Represents m index) : ∀ edit, Represents (m.edited edit) (index.edited edit)
  | .insert header metadata => h.insert header metadata
  | .remove id => h.remove id

/-- Two indexes that hold the same bindings are equal. -/
theorem unique {index' : Index} (h : Represents m index) (h' : Represents m index') :
    index = index' := by
  have hnodup : ∀ {i : Index}, Represents m i → i.entries.Nodup := by
    intro i hi
    refine hi.ids_ne.imp ?_
    rintro a b hab rfl
    exact hab rfl
  have hperm : index.entries.Perm index'.entries :=
    (List.perm_ext_iff_of_nodup (hnodup h) (hnodup h')).mpr fun e => h.bound.trans h'.bound.symm
  have hentries : index.entries = index'.entries :=
    hperm.eq_of_pairwise (fun a b _ _ hab hba => absurd hba (Header.sortsBefore_asymm hab))
      h.ordered h'.ordered
  obtain ⟨revisions, entries⟩ := index
  obtain ⟨revisions', entries'⟩ := index'
  rw [Index.mk.injEq]
  exact ⟨h.revisions.trans h'.revisions.symm, hentries⟩

end Represents

theorem represents_foldl (edits : List Edit) : ∀ {m index}, Represents m index →
    Represents (edits.foldl Bindings.edited m) (edits.foldl edited index) := by
  induction edits with
  | nil => exact id
  | cons edit edits ih => exact fun h => ih (h.edited edit)

theorem represents_run (edits : List Edit) : Represents (Bindings.of edits) (run edits) :=
  represents_foldl edits represents_empty

/-! ## The index as a sorted map -/

/-- However an index came about by insertions and removals, its entries are
the versions that were inserted last and not removed since, one for each
identifier and strictly newest first; `remove` gives what is bound to the
identifier; and edits that leave the same map leave the same index and the
same blob. -/
theorem run_canonical (edits : List Edit) :
    (∀ e, e ∈ (run edits).entries ↔
      ∃ id header metadata, Bindings.of edits id = some (header, metadata) ∧
        e = .new header metadata) ∧
    (∀ id header metadata, Bindings.of edits id = some (header, metadata) ↔
      header.id = id ∧ ∃ before after, edits = before ++ .insert header metadata :: after ∧
        ∀ edit ∈ after, edit.id ≠ id) ∧
    ((run edits).entries.map fun e => e.header.id).Nodup ∧
    ((run edits).entries.Pairwise fun a b => a.header.sortsBefore b.header) ∧
    (∀ id, ((run edits).remove id).1 = (Bindings.of edits id).map fun b => .new b.1 b.2) ∧
    ∀ edits', Bindings.of edits' = Bindings.of edits →
      run edits' = run edits ∧ (run edits').encode = (run edits).encode := by
  have h := represents_run edits
  refine ⟨?_, fun id header metadata => Bindings.of_eq_some_iff, ?_, h.ordered,
    fun id => h.find?_eq id, ?_⟩
  · intro e
    rw [h.bound, Bindings.entry?, Option.map_eq_some_iff]
    constructor
    · rintro ⟨⟨header, metadata⟩, hb, he⟩
      exact ⟨e.header.id, header, metadata, hb, he.symm⟩
    · rintro ⟨id, header, metadata, hb, rfl⟩
      refine ⟨(header, metadata), ?_, rfl⟩
      rw [← h.keyed hb] at hb
      exact hb
  · exact List.pairwise_map.mpr h.ids_ne
  · intro edits' hedits
    have hrun : run edits' = run edits := (hedits ▸ represents_run edits').unique h
    exact ⟨hrun, congrArg encode hrun⟩

/-- A version whose time is changed ends up where it does when it is put in
with that time, before all the others. -/
theorem run_replaced_eq_run_renewed :
    let replaced : List Edit := [.insert (.sample 1 10) [0xa], .insert (.sample 2 20) [0xb],
      .remove (Id.repeated 3), .insert (.sample 1 30) [0xc]]
    let renewed : List Edit := [.insert (.sample 1 30) [0xc], .insert (.sample 3 5) [],
      .insert (.sample 2 20) [0xb], .remove (Id.repeated 3)]
    Bindings.of replaced = Bindings.of renewed ∧ run replaced = run renewed := by
  intro replaced renewed
  have hof : Bindings.of replaced = Bindings.of renewed := by
    funext id
    simp only [replaced, renewed, Bindings.of, List.foldl_cons, List.foldl_nil, Bindings.edited,
      Function.update_apply, Header.sample_id]
    by_cases h1 : id = Id.repeated 1
    · subst h1
      rfl
    · by_cases h2 : id = Id.repeated 2
      · subst h2
        rfl
      · simp [h1, h2]
  exact ⟨hof, ((run_canonical renewed).2.2.2.2.2 replaced hof).1⟩

end Index

end MetaRecord.Version
