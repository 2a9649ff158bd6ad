/-
# `MetaRecord.Proofs.Version.Opening` — what an index blob opens with

In front of its pairs a blob has three integers: the revision of the headers,
that of the metadata, and how many pairs there are.  Both revisions have to be
known, and the count must not be negative.  `Declares` says by the encodings that
the three are there, and `Refused` what is wrong with the first one that is not.

The revisions are read in one way, with the highest one that is known and the
complaint about a higher one as parameters, and `revision` is that reading.

Main statements: `opening_eq_ok_iff` and `opening_eq_error_iff`; and
`exists_declares_iff`, by which a blob is refused unless it declares something.
-/
import MetaRecord.Proofs.MessagePack.Refusals
import MetaRecord.Version.Index

namespace MetaRecord.Version

open MessagePack (Read ReadError EncodesInteger LacksInt LacksUint)

/-! ## Blobs -/

/-- The blob opens with two revisions that are known and a count, and `rest`
stands behind them. -/
inductive Declares : (blob : Bytes) → Revisions → (count : Nat) → (rest : Bytes) → Prop
  | intro {revisions : Revisions} {count : Nat} {p q c rest : Bytes} :
      EncodesInteger revisions.header.toNat p →
      revisions.header ≤ Revisions.current.header →
      EncodesInteger revisions.metadata.toNat q →
      revisions.metadata ≤ Revisions.current.metadata →
      EncodesInteger count c → count < 0x8000000000000000 →
      Declares (p ++ (q ++ (c ++ rest))) revisions count rest

/-- No revision up to `known` stands at the front of the bytes: there is none, or
a `newer` one. -/
inductive RefusedRevision (known : UInt64) (newer : UInt64 → UInt64 → DecodeError) :
    (buf : Bytes) → DecodeError → Prop
  | lacking {buf : Bytes} {cause : ReadError} : LacksUint buf cause →
      RefusedRevision known newer buf (.malformedIndex cause)
  | newer {v : UInt64} {p rest : Bytes} : EncodesInteger v.toNat p → known < v →
      RefusedRevision known newer (p ++ rest) (newer v known)

/-- No count stands at the front of the bytes: there is none, or it is negative. -/
inductive RefusedCount : (buf : Bytes) → DecodeError → Prop
  | lacking {buf : Bytes} {cause : ReadError} : LacksInt buf cause →
      RefusedCount buf (.malformedIndex cause)
  | negative {count : Int64} {c rest : Bytes} : EncodesInteger count.toInt c → count < 0 →
      RefusedCount (c ++ rest) (.negativeVersionCount count)

/-- The blob does not open as it should, for the reason given. -/
inductive Refused : (blob : Bytes) → DecodeError → Prop
  | header {blob : Bytes} {e : DecodeError} :
      RefusedRevision Revisions.current.header .unknownHeaderRevision blob e → Refused blob e
  | metadata {header : UInt64} {p rest : Bytes} {e : DecodeError} :
      EncodesInteger header.toNat p → header ≤ Revisions.current.header →
      RefusedRevision Revisions.current.metadata .unknownMetadataRevision rest e →
      Refused (p ++ rest) e
  | count {header metadata : UInt64} {p q rest : Bytes} {e : DecodeError} :
      EncodesInteger header.toNat p → header ≤ Revisions.current.header →
      EncodesInteger metadata.toNat q → metadata ≤ Revisions.current.metadata →
      RefusedCount rest e → Refused (p ++ (q ++ rest)) e

/-! ## Reading the three -/

section Indexed

variable {α : Type} {r : Read α} {buf rest : Bytes}

theorem indexed_eq_ok_iff {a : α} : indexed r buf = .ok (a, rest) ↔ r buf = .ok (a, rest) :=
  mapError_eq_ok

theorem indexed_eq_error_iff {e : DecodeError} :
    indexed r buf = .error e ↔ ∃ cause, r buf = .error cause ∧ .malformedIndex cause = e :=
  mapError_eq_error

theorem indexed_uint_append {v : UInt64} {p : Bytes} (hp : EncodesInteger v.toNat p)
    (rest : Bytes) : indexed Read.uint (p ++ rest) = .ok (v, rest) :=
  indexed_eq_ok_iff.mpr (Read.uint_eq_ok_iff.mpr ⟨p, hp, rfl⟩)

theorem indexed_int_append {v : Int64} {p : Bytes} (hp : EncodesInteger v.toInt p)
    (rest : Bytes) : indexed Read.int (p ++ rest) = .ok (v, rest) :=
  indexed_eq_ok_iff.mpr (Read.int_eq_ok_iff.mpr ⟨p, hp, rfl⟩)

end Indexed

/-- A revision that has to be known. -/
def revision (known : UInt64) (newer : UInt64 → UInt64 → DecodeError) (buf : Bytes) :
    Except DecodeError (UInt64 × Bytes) := do
  let (v, rest) ← indexed Read.uint buf
  if known < v then throw (newer v known)
  return (v, rest)

/-- The count of the pairs. -/
def pairCount (buf : Bytes) : Except DecodeError (Nat × Bytes) := do
  let (count, rest) ← indexed Read.int buf
  if count < 0 then throw (.negativeVersionCount count)
  return (count.toInt.toNat, rest)

theorem opening_eq (blob : Bytes) :
    opening blob = (do
      let (header, rest) ← revision Revisions.current.header .unknownHeaderRevision blob
      let (metadata, rest) ← revision Revisions.current.metadata .unknownMetadataRevision rest
      let (count, rest) ← pairCount rest
      return ((⟨header, metadata⟩, count), rest)) := by
  rw [opening, revision]
  cases indexed Read.uint blob with
  | error e => rfl
  | ok found =>
      obtain ⟨header, rest⟩ := found
      rw [ok_bind, ok_bind]
      dsimp only
      split
      · rfl
      · show _ = (revision Revisions.current.metadata .unknownMetadataRevision rest >>= _)
        rw [revision]
        cases indexed Read.uint rest with
        | error e => rfl
        | ok found =>
            obtain ⟨metadata, rest⟩ := found
            rw [ok_bind, ok_bind]
            dsimp only
            split
            · rfl
            · show _ = (pairCount rest >>= _)
              rw [pairCount]
              cases indexed Read.int rest with
              | error e => rfl
              | ok found =>
                  obtain ⟨count, rest⟩ := found
                  rw [ok_bind, ok_bind]
                  dsimp only
                  split <;> rfl

section Reading

variable {known : UInt64} {newer : UInt64 → UInt64 → DecodeError} {buf rest : Bytes}
  {e : DecodeError}

theorem revision_eq_ok_iff {v : UInt64} :
    revision known newer buf = .ok (v, rest) ↔
      ∃ p, EncodesInteger v.toNat p ∧ v ≤ known ∧ buf = p ++ rest := by
  constructor
  · intro h
    obtain ⟨⟨w, mid⟩, hread, h⟩ := bind_eq_ok.mp h
    dsimp only at h
    split at h
    · exact nomatch h
    · next hknown =>
        obtain ⟨rfl, rfl⟩ := Prod.mk.inj (Except.ok.inj h)
        obtain ⟨p, hp, rfl⟩ := Read.uint_eq_ok_iff.mp (indexed_eq_ok_iff.mp hread)
        exact ⟨p, hp, UInt64.not_lt.mp hknown, rfl⟩
  · rintro ⟨p, hp, hknown, rfl⟩
    rw [revision, indexed_uint_append hp, ok_bind]
    dsimp only
    rw [if_neg (UInt64.not_lt.mpr hknown)]
    rfl

theorem revision_eq_error_iff :
    revision known newer buf = .error e ↔ RefusedRevision known newer buf e := by
  constructor
  · intro h
    rcases bind_eq_error.mp h with hread | ⟨⟨v, mid⟩, hread, h⟩
    · obtain ⟨cause, hcause, rfl⟩ := indexed_eq_error_iff.mp hread
      exact .lacking (Read.uint_eq_error_iff.mp hcause)
    · dsimp only at h
      split at h
      · next hnewer =>
          obtain rfl := Except.error.inj h
          obtain ⟨p, hp, rfl⟩ := Read.uint_eq_ok_iff.mp (indexed_eq_ok_iff.mp hread)
          exact .newer hp hnewer
      · exact nomatch h
  · intro h
    cases h with
    | lacking hlacks =>
        rw [revision, indexed_eq_error_iff.mpr ⟨_, Read.uint_eq_error_iff.mpr hlacks, rfl⟩]
        rfl
    | @newer v p rest hp hnewer =>
        rw [revision, indexed_uint_append hp, ok_bind]
        dsimp only
        rw [if_pos hnewer]
        rfl

theorem pairCount_eq_ok_iff {count : Nat} :
    pairCount buf = .ok (count, rest) ↔
      ∃ c, EncodesInteger count c ∧ count < 0x8000000000000000 ∧ buf = c ++ rest := by
  constructor
  · intro h
    obtain ⟨⟨declared, mid⟩, hread, h⟩ := bind_eq_ok.mp h
    dsimp only at h
    split at h
    · exact nomatch h
    · next hsign =>
        obtain ⟨rfl, rfl⟩ := Prod.mk.inj (Except.ok.inj h)
        obtain ⟨c, hc, rfl⟩ := Read.int_eq_ok_iff.mp (indexed_eq_ok_iff.mp hread)
        have hnonneg : 0 ≤ declared.toInt :=
          Int.not_lt.mp fun hneg => hsign (Int64.lt_iff_toInt_lt.mpr hneg)
        have := declared.toInt_lt
        refine ⟨c, ?_, by omega, rfl⟩
        rw [Int.toNat_of_nonneg hnonneg]
        exact hc
  · rintro ⟨c, hc, hcount, rfl⟩
    have hdeclared : (Int64.ofInt count).toInt = count :=
      Int64.toInt_ofInt_of_le (by omega) (by omega)
    have hsign : ¬ Int64.ofInt count < 0 := fun hneg => by
      rw [Int64.lt_iff_toInt_lt, hdeclared] at hneg
      exact absurd hneg (Int.not_lt.mpr (Int.natCast_nonneg count))
    rw [← hdeclared] at hc
    rw [pairCount, indexed_int_append hc, ok_bind]
    dsimp only
    rw [if_neg hsign, hdeclared]
    rfl

theorem pairCount_eq_error_iff : pairCount buf = .error e ↔ RefusedCount buf e := by
  constructor
  · intro h
    rcases bind_eq_error.mp h with hread | ⟨⟨count, mid⟩, hread, h⟩
    · obtain ⟨cause, hcause, rfl⟩ := indexed_eq_error_iff.mp hread
      exact .lacking (Read.int_eq_error_iff.mp hcause)
    · dsimp only at h
      split at h
      · next hnegative =>
          obtain rfl := Except.error.inj h
          obtain ⟨c, hc, rfl⟩ := Read.int_eq_ok_iff.mp (indexed_eq_ok_iff.mp hread)
          exact .negative hc hnegative
      · exact nomatch h
  · intro h
    cases h with
    | lacking hlacks =>
        rw [pairCount, indexed_eq_error_iff.mpr ⟨_, Read.int_eq_error_iff.mpr hlacks, rfl⟩]
        rfl
    | @negative count c rest hc hnegative =>
        rw [pairCount, indexed_int_append hc, ok_bind]
        dsimp only
        rw [if_pos hnegative]
        rfl

end Reading

/-! ## The whole opening -/

theorem opening_eq_ok_iff {blob rest : Bytes} {revisions : Revisions} {count : Nat} :
    opening blob = .ok ((revisions, count), rest) ↔ Declares blob revisions count rest := by
  rw [opening_eq]
  constructor
  · intro h
    obtain ⟨⟨header, rest₁⟩, hheader, h⟩ := bind_eq_ok.mp h
    obtain ⟨⟨metadata, rest₂⟩, hmetadata, h⟩ := bind_eq_ok.mp h
    obtain ⟨⟨declared, rest₃⟩, hcount, h⟩ := bind_eq_ok.mp h
    obtain ⟨⟨⟩, rfl⟩ := Prod.mk.inj (Except.ok.inj h)
    obtain ⟨p, hp, hknown, rfl⟩ := revision_eq_ok_iff.mp hheader
    obtain ⟨q, hq, hknown', rfl⟩ := revision_eq_ok_iff.mp hmetadata
    obtain ⟨c, hc, hlt, rfl⟩ := pairCount_eq_ok_iff.mp hcount
    exact .intro hp hknown hq hknown' hc hlt
  · rintro ⟨hp, hknown, hq, hknown', hc, hlt⟩
    exact bind_eq_ok.mpr ⟨_, revision_eq_ok_iff.mpr ⟨_, hp, hknown, rfl⟩, bind_eq_ok.mpr
      ⟨_, revision_eq_ok_iff.mpr ⟨_, hq, hknown', rfl⟩, bind_eq_ok.mpr
        ⟨_, pairCount_eq_ok_iff.mpr ⟨_, hc, hlt, rfl⟩, rfl⟩⟩⟩

theorem opening_eq_error_iff {blob : Bytes} {e : DecodeError} :
    opening blob = .error e ↔ Refused blob e := by
  rw [opening_eq]
  constructor
  · intro hopening
    rcases bind_eq_error.mp hopening with h | ⟨⟨header, rest₁⟩, hheader, hmore⟩
    · exact .header (revision_eq_error_iff.mp h)
    · obtain ⟨p, hp, hknown, rfl⟩ := revision_eq_ok_iff.mp hheader
      rcases bind_eq_error.mp hmore with h | ⟨⟨metadata, rest₂⟩, hmetadata, hlast⟩
      · exact .metadata hp hknown (revision_eq_error_iff.mp h)
      · obtain ⟨q, hq, hknown', rfl⟩ := revision_eq_ok_iff.mp hmetadata
        rcases bind_eq_error.mp hlast with h | ⟨_, _, h⟩
        · exact .count hp hknown hq hknown' (pairCount_eq_error_iff.mp h)
        · exact nomatch h
  · intro h
    cases h with
    | header hrefused => exact bind_eq_error.mpr (Or.inl (revision_eq_error_iff.mpr hrefused))
    | metadata hp hknown hrefused =>
        exact bind_eq_error.mpr (Or.inr ⟨_, revision_eq_ok_iff.mpr ⟨_, hp, hknown, rfl⟩,
          bind_eq_error.mpr (Or.inl (revision_eq_error_iff.mpr hrefused))⟩)
    | count hp hknown hq hknown' hrefused =>
        exact bind_eq_error.mpr (Or.inr ⟨_, revision_eq_ok_iff.mpr ⟨_, hp, hknown, rfl⟩,
          bind_eq_error.mpr (Or.inr ⟨_, revision_eq_ok_iff.mpr ⟨_, hq, hknown', rfl⟩,
            bind_eq_error.mpr (Or.inl (pairCount_eq_error_iff.mpr hrefused))⟩)⟩)

theorem exists_declares_iff {blob : Bytes} :
    (∃ revisions count rest, Declares blob revisions count rest) ↔ ¬ ∃ e, Refused blob e := by
  simp only [← opening_eq_ok_iff, ← opening_eq_error_iff]
  cases opening blob with
  | error e => simp
  | ok found =>
      obtain ⟨⟨revisions, count⟩, rest⟩ := found
      simp

end MetaRecord.Version
