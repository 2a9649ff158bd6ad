/-
# `MetaRecord.Proofs.Version.Order` — newest first, and where a version goes

`Header.sortsBefore` compares times and then identifiers, both downwards.  It
is a strict order in which two headers are level only when both agree, so a
list in which no neighbour is out of place is in order throughout.

A version is put in by a search that halves the list.  Such a search is right
only where the entries it looks for stand in front of the others, and that is
the case in a list that is in order.  What `Index.insert` does there is said
by `exists_insert`: the new entry goes behind all that sort before it and in
front of all that do not.

Main statements: `sortsBefore_of_not` (nothing changes sides along a list in
order), `partitionPoint_append`, `Index.isSorted_iff` and `Index.exists_insert`.
-/
import MetaRecord.Version.Index

namespace MetaRecord.Version

/-! ## The order of headers -/

namespace Header

variable {a b c : Header}

theorem sortsBefore_irrefl (a : Header) : ¬ a.sortsBefore a := by
  rintro (h | ⟨-, h⟩)
  · exact Int64.lt_irrefl h
  · exact List.lt_irrefl _ h

theorem sortsBefore_trans (hab : a.sortsBefore b) (hbc : b.sortsBefore c) : a.sortsBefore c := by
  rcases hab with hab | ⟨htime, hid⟩
  · rcases hbc with hbc | ⟨htime', -⟩
    · exact Or.inl (Int64.lt_trans hbc hab)
    · exact Or.inl (htime' ▸ hab)
  · rcases hbc with hbc | ⟨htime', hid'⟩
    · exact Or.inl (htime ▸ hbc)
    · exact Or.inr ⟨htime'.trans htime, List.lt_trans hid' hid⟩

theorem sortsBefore_asymm (hab : a.sortsBefore b) : ¬ b.sortsBefore a :=
  fun hba => sortsBefore_irrefl a (sortsBefore_trans hab hba)

/-- Headers that are level have the same time and the same identifier. -/
theorem level (hab : ¬ a.sortsBefore b) (hba : ¬ b.sortsBefore a) :
    a.modTime = b.modTime ∧ a.id = b.id := by
  have htime : a.modTime = b.modTime :=
    Int64.le_antisymm (Int64.not_lt.mp fun h => hab (Or.inl h))
      (Int64.not_lt.mp fun h => hba (Or.inl h))
  refine ⟨htime, FixedBytes.ext ?_⟩
  exact List.le_antisymm (List.not_lt.mp fun h => hab (Or.inr ⟨htime.symm, h⟩))
    (List.not_lt.mp fun h => hba (Or.inr ⟨htime, h⟩))

theorem sortsBefore_or (h : a.id ≠ b.id) : a.sortsBefore b ∨ b.sortsBefore a := by
  by_cases hab : a.sortsBefore b
  · exact Or.inl hab
  · by_cases hba : b.sortsBefore a
    · exact Or.inr hba
    · exact absurd (level hab hba).2 h

/-- What sorts before `c` does so with everything that it does not follow. -/
theorem sortsBefore_of_not (hba : ¬ b.sortsBefore a) (hbc : b.sortsBefore c) :
    a.sortsBefore c := by
  by_cases hab : a.sortsBefore b
  · exact sortsBefore_trans hab hbc
  · obtain ⟨htime, hid⟩ := level hab hba
    rw [sortsBefore] at hbc ⊢
    rw [htime, hid]
    exact hbc

end Header

/-! ## The search -/

/-- The search finds the end of the run, if it lies where it looks. -/
theorem bisect_eq {before : Nat → Bool} {k : Nat} :
    ∀ {base size : Nat}, (∀ i, base ≤ i → i < base + size → (before i = true ↔ i < k)) →
      base ≤ k → k ≤ base + size → bisect before base size = k := by
  intro base size
  induction size using Nat.strongRecOn generalizing base with
  | ind size ih =>
      intro hbefore hlow hhigh
      rw [bisect]
      split
      · next hsize =>
          split
          · next h =>
              have := (hbefore base (Nat.le_refl _) (by omega)).mp h.2
              omega
          · next h =>
              rcases Nat.lt_or_ge base k with hlt | hge
              · have hone : size = 1 := by omega
                exact absurd ⟨hone, (hbefore base (Nat.le_refl _) (by omega)).mpr hlt⟩ h
              · omega
      · next hsize =>
          have hmiddle := hbefore (base + size / 2) (by omega) (by omega)
          dsimp only
          by_cases h : before (base + size / 2) = true
          · rw [if_pos h]
            exact ih (size - size / 2) (by omega) (fun i hi hi' => hbefore i (by omega) (by omega))
              (Nat.le_of_lt (hmiddle.mp h)) (by omega)
          · rw [if_neg h]
            have hk : ¬ base + size / 2 < k := fun hlt => h (hmiddle.mpr hlt)
            exact ih (size - size / 2) (by omega) (fun i hi hi' => hbefore i hi (by omega))
              hlow (by omega)

theorem partitionPoint_append {α : Type} {p : α → Bool} {front back : List α}
    (hfront : ∀ x ∈ front, p x = true) (hback : ∀ x ∈ back, ¬ p x = true) :
    partitionPoint p (front ++ back) = front.length := by
  refine bisect_eq ?_ (Nat.zero_le _) (by simp)
  intro i _ hi
  rcases Nat.lt_or_ge i front.length with hlt | hge
  · rw [List.getElem?_append_left hlt, List.getElem?_eq_getElem hlt]
    exact ⟨fun _ => hlt, fun _ => hfront _ (List.getElem_mem hlt)⟩
  · have hi' : i - front.length < back.length := by
      rw [List.length_append] at hi
      omega
    rw [List.getElem?_append_right hge, List.getElem?_eq_getElem hi']
    exact ⟨fun h => absurd h (hback _ (List.getElem_mem hi')), fun h => absurd hge (by omega)⟩

theorem exists_partition {α : Type} {p : α → Bool} :
    ∀ {xs : List α}, xs.Pairwise (fun x y => p y = true → p x = true) →
      ∃ front back, xs = front ++ back ∧ (∀ x ∈ front, p x = true) ∧ ∀ x ∈ back, ¬ p x = true
  | [], _ => ⟨[], [], rfl, fun _ hx => absurd hx List.not_mem_nil,
      fun _ hx => absurd hx List.not_mem_nil⟩
  | x :: xs, h => by
      obtain ⟨hx, hxs⟩ := List.pairwise_cons.mp h
      by_cases hp : p x = true
      · obtain ⟨front, back, rfl, hfront, hback⟩ := exists_partition hxs
        refine ⟨x :: front, back, rfl, ?_, hback⟩
        intro y hy
        rcases List.mem_cons.mp hy with rfl | hy
        · exact hp
        · exact hfront y hy
      · refine ⟨[], x :: xs, rfl, fun _ hy => absurd hy List.not_mem_nil, ?_⟩
        intro y hy hpy
        rcases List.mem_cons.mp hy with rfl | hy
        · exact hp hpy
        · exact hp (hx y hy hpy)

/-! ## Inserting into an index that is in order -/

/-- No entry sorts before one that stands in front of it. -/
def InOrder (es : List Entry) : Prop := es.Pairwise fun a b => ¬ b.header.sortsBefore a.header

namespace Index

/-- Where no neighbour is out of place, nothing is. -/
theorem isSorted_iff {index : Index} : index.isSorted = true ↔ InOrder index.entries := by
  have hgo : ∀ es : List Entry, isSorted.go es = true ↔ InOrder es := by
    intro es
    fun_induction isSorted.go es with
    | case1 a b rest ih =>
        rw [Bool.and_eq_true, ih, Bool.not_eq_true', decide_eq_false_iff_not]
        constructor
        · rintro ⟨hab, hrest⟩
          refine List.pairwise_cons.mpr ⟨fun c hc hca => ?_, hrest⟩
          rcases List.mem_cons.mp hc with rfl | hc
          · exact hab hca
          · have hcb := (List.pairwise_cons.mp hrest).1 c hc
            exact hab (Header.sortsBefore_of_not hcb hca)
        · intro h
          obtain ⟨ha, hrest⟩ := List.pairwise_cons.mp h
          exact ⟨ha b List.mem_cons_self, hrest⟩
    | case2 es hshort =>
        match es, hshort with
        | [], _ => exact ⟨fun _ => List.Pairwise.nil, fun _ => rfl⟩
        | [a], _ => exact ⟨fun _ => List.pairwise_singleton _ _, fun _ => rfl⟩
        | a :: b :: rest, hshort => exact absurd rfl (hshort a b rest)
  exact hgo index.entries

/-- The versions are in order, and no version sorts before the latest one. -/
def NewestFirst (index : Index) : Prop :=
  index.isSorted = true ∧
    ∀ e, index.latest? = some e → ∀ x ∈ index.entries, ¬ x.header.sortsBefore e.header

theorem newestFirst_iff {index : Index} : index.NewestFirst ↔ InOrder index.entries := by
  rw [NewestFirst, isSorted_iff, and_iff_left_iff_imp]
  intro horder e hlatest x hx
  obtain ⟨rest, hentries⟩ := List.head?_eq_some_iff.mp hlatest
  rw [hentries] at horder hx
  rcases List.mem_cons.mp hx with rfl | hx
  · exact Header.sortsBefore_irrefl _
  · exact (List.pairwise_cons.mp horder).1 x hx

theorem inOrder_remove {index : Index} (h : InOrder index.entries) (id : Id) :
    InOrder (index.remove id).2.entries :=
  h.sublist List.eraseP_sublist

/-- The new entry goes behind the others that sort before it and in front of
those that do not. -/
theorem exists_insert {index : Index} {e : Entry}
    (h : InOrder (index.remove e.header.id).2.entries) :
    ∃ front back, (index.remove e.header.id).2.entries = front ++ back ∧
      (index.insert e).entries = front ++ e :: back ∧
      (∀ x ∈ front, x.header.sortsBefore e.header) ∧
      ∀ x ∈ back, ¬ x.header.sortsBefore e.header := by
  obtain ⟨front, back, hsplit, hfront, hback⟩ := exists_partition
    (p := fun x : Entry => decide (x.header.sortsBefore e.header)) (h.imp fun hab hb =>
      decide_eq_true (Header.sortsBefore_of_not hab (of_decide_eq_true hb)))
  refine ⟨front, back, hsplit, ?_, fun x hx => of_decide_eq_true (hfront x hx),
    fun x hx hlt => hback x hx (decide_eq_true hlt)⟩
  dsimp only [insert]
  rw [hsplit, partitionPoint_append hfront hback, List.take_left, List.drop_left]

end Index

end MetaRecord.Version
