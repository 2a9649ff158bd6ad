/-
# `MetaRecord.Checksum.Status` — comparing a stored checksum

A record may carry a 32-bit checksum of the blob it opens with: the low half
of the blob's hash.  A record without one is not damaged, so the comparison
has three outcomes.
-/
import MetaRecord.Checksum.XxHash64

namespace MetaRecord.Checksum

def ofBlob (blob : Bytes) : UInt32 := (XxHash64.hash blob).toUInt32

/-- What comparing a stored checksum with its blob shows. -/
inductive Status where
  | absent
  /-- The stored checksum is the blob's. -/
  | valid
  /-- The stored checksum is not the blob's. -/
  | mismatch (stored computed : UInt32)
deriving DecidableEq, Repr

/-- Compare an optional stored checksum with the blob it covers. -/
def Status.check (stored : Option UInt32) (blob : Bytes) : Status :=
  match stored with
  | none => .absent
  | some stored =>
    let computed := ofBlob blob
    if stored = computed then .valid else .mismatch stored computed

/-- Anything but a mismatch. -/
def Status.isOk : Status → Bool
  | .absent | .valid => true
  | .mismatch .. => false

@[simp] theorem Status.check_none (blob : Bytes) : check none blob = .absent := rfl

theorem Status.check_eq_valid_iff {stored : Option UInt32} {blob : Bytes} :
    check stored blob = .valid ↔ stored = some (ofBlob blob) := by
  cases stored with
  | none => simp
  | some c => simp [check]

@[simp] theorem Status.check_ofBlob (blob : Bytes) :
    check (some (ofBlob blob)) blob = .valid := check_eq_valid_iff.mpr rfl

/-- A checksum that is stored and is not the blob's is the only mismatch, and
both are given. -/
theorem Status.check_eq_mismatch_iff {stored : Option UInt32} {blob : Bytes} {c computed : UInt32} :
    check stored blob = .mismatch c computed ↔
      stored = some c ∧ computed = ofBlob blob ∧ c ≠ ofBlob blob := by
  cases stored with
  | none => simp
  | some c' =>
      rw [check, Option.some.injEq]
      by_cases hvalid : c' = ofBlob blob
      · rw [if_pos hvalid]
        constructor
        · exact nofun
        · rintro ⟨rfl, -, hne⟩
          exact absurd hvalid hne
      · rw [if_neg hvalid, mismatch.injEq]
        constructor
        · rintro ⟨rfl, rfl⟩
          exact ⟨rfl, rfl, hvalid⟩
        · rintro ⟨rfl, rfl, -⟩
          exact ⟨rfl, rfl⟩

end MetaRecord.Checksum
