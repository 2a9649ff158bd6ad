/-
# `MetaRecord.Proofs.MessagePack.Discipline` — what every read of one value keeps to

Optional fields are told by trying to read them, and a record that is still
being received is told from one that is wrong by what a read reports.  Both
rest on the same rules for all reads of one value.  A call that fails leaves
the cursor where it was.  A call that succeeds takes at least one byte, and
what it takes decides: the same bytes give the same value whatever stands
behind them, and where they are cut, bytes are reported missing.

The rules have two sources.  What is taken is settled by the reads over bytes
(`Read.Proper`), and that nothing is taken by a failure by the way they are
carried out in place (`Cursor.Restores`).

Main statements: `Disciplined.of_restores` and `reads_disciplined`.
-/
import MetaRecord.Proofs.MessagePack.Local
import MetaRecord.Proofs.MessagePack.Cursor

namespace MetaRecord.MessagePack

open MetaRecord.Decimal (Binary64)

/-- The rules for a call on a cursor, where `failed` tells which results are
failures and `missed` which of them mean that bytes are missing. -/
structure Disciplined {β : Type} (call : StateM Bytes β) (failed missed : β → Prop) : Prop where
  stays {buf rest : Bytes} {b : β} : call buf = (b, rest) → failed b → rest = buf
  takes {buf rest : Bytes} {b : β} : call buf = (b, rest) → ¬ failed b →
    ∃ p, p ≠ [] ∧ buf = p ++ rest ∧
      (∀ s, call (p ++ s) = (b, s)) ∧
      ∀ q t, p = q ++ t → t ≠ [] → ∃ b', call q = (b', q) ∧ missed b'

/-- A read that takes what it reads, carried out in place and handed on as `g`
shows it. -/
theorem Disciplined.of_restores {α β : Type} {x : Cursor α} {r : Read α}
    {g : Except ReadError α → β} {failed missed : β → Prop}
    (hx : x.Restores r) (hr : r.Proper) (hok : ∀ a, ¬ failed (g (.ok a)))
    (herror : ∀ e, failed (g (.error e)))
    (hshort : ∀ e : ReadError, e.IsShort → missed (g (.error e))) :
    Disciplined (return g (← x.run)) failed missed where
  stays {buf rest b} hcall hfailed := by
    change (g (x buf).1, (x buf).2) = (b, rest) at hcall
    cases hread : r buf with
    | error e =>
        rw [hx.error hread] at hcall
        exact (Prod.mk.inj hcall).2.symm
    | ok taken =>
        rw [hx.ok hread] at hcall
        obtain ⟨rfl, -⟩ := Prod.mk.inj hcall
        exact absurd hfailed (hok _)
  takes {buf rest b} hcall hfailed := by
    change (g (x buf).1, (x buf).2) = (b, rest) at hcall
    cases hread : r buf with
    | error e =>
        rw [hx.error hread] at hcall
        obtain ⟨rfl, -⟩ := Prod.mk.inj hcall
        exact absurd (herror e) hfailed
    | ok taken =>
        rw [hx.ok hread] at hcall
        obtain ⟨rfl, rfl⟩ := Prod.mk.inj hcall
        obtain ⟨p, hne, hbuf, hp⟩ := hr.spelled hread
        refine ⟨p, hne, hbuf, fun s => ?_, fun q t hq ht => ?_⟩
        · change (g (x (p ++ s)).1, (x (p ++ s)).2) = _
          rw [hx.ok (hp.whole s)]
        · obtain ⟨e, he, hmissing⟩ := hp.cut hq.symm ht
          refine ⟨g (.error e), ?_, hshort e hmissing⟩
          change (g (x q).1, (x q).2) = _
          rw [hx.error he]

/-! ## All reads of one value -/

/-- The reads of one value, by the type of what they give. -/
inductive Method : Type → Type
  | bin : Method Bytes
  | fixedBin (size : Nat) : Method (FixedBytes size)
  | str : Method String
  | mapKey : Method Bytes
  | uint : Method UInt64
  | int : Method Int64
  | uint32 : Method UInt32
  | uint8 : Method UInt8
  | arrayLength : Method UInt32
  | mapLength : Method UInt32
  | nil : Method Unit
  | bool : Method Bool
  | float : Method Binary64
  | extension : Method Read.Extension
  | skip : Method Unit
  | raw : Method Bytes

namespace Method

/-- The read over bytes. -/
def read : {α : Type} → Method α → Read α
  | _, bin => Read.bin
  | _, fixedBin size => Read.fixedBin size
  | _, str => Read.str
  | _, mapKey => Read.mapKey
  | _, uint => Read.uint
  | _, int => Read.int
  | _, uint32 => Read.uint32
  | _, uint8 => Read.uint8
  | _, arrayLength => Read.arrayLength
  | _, mapLength => Read.mapLength
  | _, nil => Read.nil
  | _, bool => Read.bool
  | _, float => Read.float
  | _, extension => Read.extension
  | _, skip => Read.skip
  | _, raw => Read.raw

/-- The read in place. -/
def inPlace : {α : Type} → Method α → Cursor α
  | _, bin => Cursor.bin
  | _, fixedBin size => Cursor.fixedBin size
  | _, str => Cursor.str
  | _, mapKey => Cursor.mapKey
  | _, uint => Cursor.uint
  | _, int => Cursor.int
  | _, uint32 => Cursor.uint32
  | _, uint8 => Cursor.uint8
  | _, arrayLength => Cursor.arrayLength
  | _, mapLength => Cursor.mapLength
  | _, nil => Cursor.nil
  | _, bool => Cursor.bool
  | _, float => Cursor.float
  | _, extension => Cursor.extension
  | _, skip => Cursor.skip
  | _, raw => Cursor.raw

theorem read_proper {α : Type} (m : Method α) : m.read.Proper := by
  cases m with
  | bin => exact .bin
  | fixedBin size => exact .fixedBin size
  | str => exact .str
  | mapKey => exact .mapKey
  | uint => exact .uint
  | int => exact .int
  | uint32 => exact .uint32
  | uint8 => exact .uint8
  | arrayLength => exact .arrayLength
  | mapLength => exact .mapLength
  | nil => exact .nil
  | bool => exact .bool
  | float => exact .float
  | extension => exact .extension
  | skip => exact .skip
  | raw => exact .raw

theorem inPlace_restores {α : Type} (m : Method α) : m.inPlace.Restores m.read := by
  cases m with
  | bin => exact .bin
  | fixedBin size => exact .fixedBin size
  | str => exact .str
  | mapKey => exact .mapKey
  | uint => exact .uint
  | int => exact .int
  | uint32 => exact .uint32
  | uint8 => exact .uint8
  | arrayLength => exact .arrayLength
  | mapLength => exact .mapLength
  | nil => exact .nil
  | bool => exact .bool
  | float => exact .float
  | extension => exact .extension
  | skip => exact .skip
  | raw => exact .raw

end Method

/-- Every read of one value keeps to the rules, and in place it gives what it
gives over bytes.  So does the read of an optional integer, which gives none
where the integer cannot be read. -/
theorem reads_disciplined :
    (∀ {α : Type} (m : Method α),
      m.inPlace.Restores m.read ∧
        Disciplined m.inPlace (fun outcome => ∃ e, outcome = .error e)
          (fun outcome => ∃ e : ReadError, outcome = .error e ∧ e.IsShort)) ∧
      (∀ buf, Cursor.uint32? buf = Read.uint32? buf) ∧
      Disciplined Cursor.uint32? (· = none) (· = none) := by
  refine ⟨fun m => ⟨m.inPlace_restores, ?_⟩, Cursor.Restores.uint32?, ?_⟩
  · refine .of_restores (g := id) m.inPlace_restores m.read_proper ?_
      (fun e => ⟨e, rfl⟩) fun e he => ⟨e, rfl, he⟩
    rintro a ⟨e, he⟩
    exact nomatch he
  · refine .of_restores .uint32 .uint32 ?_ (fun _ => rfl) fun _ _ => rfl
    intro a ha
    exact nomatch ha

/-- The bytes of another length are read before the length is found wrong, and
are there again afterwards. -/
example : Cursor.fixedBin 2 [0xc4, 1, 7] = (.error (.wrongLength 2 1), [0xc4, 1, 7]) := by rfl

end MetaRecord.MessagePack
