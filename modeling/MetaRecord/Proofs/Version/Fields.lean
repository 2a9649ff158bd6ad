/-
# `MetaRecord.Proofs.Version.Fields` — a header that was cut

A header is the count of its fields and then the fields, each written for
itself.  Where one ends depends on the values: a time takes from one byte to
nine, the type and the flags take one or two each, so the same position lies in
different fields of different headers.  A scan that runs out of bytes names a
field, and that must be the field the bytes end in.

`EndsInCut` says this of a scan and the fields that it reads, whatever it does
behind them.  It holds where there is no field, and a field in front keeps it, so
it follows the scan of a header field by field.

Main statement: `Header.read_or_cut`.
-/
import MetaRecord.Proofs.Version.Codec

namespace MetaRecord

open MessagePack (Read ReadError Spells Write.arrayLength Write.bin Write.int Write.uint)

/-- The fields in stored order. -/
def HeaderField.all : List HeaderField :=
  [.arity, .versionId, .modTime, .signature, .type, .flags]

namespace Version.Header

/-! ## The fields of a header -/

/-- What a field is written as. -/
def fieldBytes (h : Header) : HeaderField → Bytes
  | .arity => Write.arrayLength arity
  | .versionId => Write.bin h.id.bytes
  | .modTime => Write.int h.modTime
  | .signature => Write.bin h.signature.bytes
  | .type => Write.uint h.type.toUInt64
  | .flags => Write.uint h.flags.bits.toUInt64

theorem bytes_eq_flatMap (h : Header) : h.bytes = HeaderField.all.flatMap h.fieldBytes := by
  simp only [bytes, HeaderField.all, fieldBytes, List.flatMap_cons, List.flatMap_nil,
    List.append_nil, List.append_assoc]

/-- `name` is the first of the fields whose bytes are not all in `q`. -/
def FirstCut (encoding : HeaderField → Bytes) (fields : List HeaderField) (q : Bytes)
    (name : HeaderField) : Prop :=
  ∃ before after, fields = before ++ name :: after ∧ before.flatMap encoding <+: q ∧
    ¬ (before ++ [name]).flatMap encoding <+: q

section Cut

variable {encoding : HeaderField → Bytes} {fields : List HeaderField} {name other : HeaderField}
  {q t : Bytes}

theorem firstCut_head (hs : q ++ t = encoding name) (ht : t ≠ []) :
    FirstCut encoding (name :: fields) q name := by
  refine ⟨[], fields, rfl, List.nil_prefix, fun hfront => ht ?_⟩
  rw [List.nil_append, List.flatMap_singleton, ← hs] at hfront
  have hlen := hfront.length_le
  rw [List.length_append] at hlen
  exact List.eq_nil_of_length_eq_zero (by omega)

theorem FirstCut.cons (h : FirstCut encoding fields q name) :
    FirstCut encoding (other :: fields) (encoding other ++ q) name := by
  obtain ⟨before, after, rfl, hbefore, hname⟩ := h
  refine ⟨other :: before, after, rfl, ?_, fun hfront => hname ?_⟩
  · rw [List.flatMap_cons]
    exact (List.prefix_append_right_inj _).mpr hbefore
  · rw [List.cons_append, List.flatMap_cons] at hfront
    exact (List.prefix_append_right_inj _).mp hfront

/-! ## Scans of cut fields -/

variable {α β : Type} {r : Read α} {a : α}

/-- Where a field is cut, the scan ends and names it. -/
theorem field_cut (h : Spells ReadError.IsShort r (encoding name) a) (f : α → Scan β)
    (hs : q ++ t = encoding name) (ht : t ≠ []) :
    ∃ cause, ((field name r >>= f) q).1 = .error (.truncatedHeader name cause) ∧
      cause.IsShort := by
  obtain ⟨cause, hcause, hshort⟩ := h.cut hs ht
  have hfield : field name r q = (.error (.truncatedHeader name cause), q) := by
    rw [field, hcause]
  refine ⟨cause, ?_, hshort⟩
  show (ExceptT.bindCont f (field name r q).1 (field name r q).2).1 = _
  rw [hfield]
  rfl

/-- Bytes that end inside the fields end the scan, and it names the first of
them that is not whole. -/
def EndsInCut (encoding : HeaderField → Bytes) (fields : List HeaderField) (s : Scan β) : Prop :=
  ∀ q t, q ++ t = fields.flatMap encoding → t ≠ [] →
    ∃ name cause, (s q).1 = .error (.truncatedHeader name cause) ∧ cause.IsShort ∧
      FirstCut encoding fields q name

theorem EndsInCut.nil (s : Scan β) : EndsInCut encoding [] s := fun _ _ hs ht =>
  absurd (List.append_eq_nil_iff.mp hs).2 ht

theorem EndsInCut.field {f : α → Scan β} (hr : Spells ReadError.IsShort r (encoding name) a)
    (hf : EndsInCut encoding fields (f a)) :
    EndsInCut encoding (name :: fields) (Header.field name r >>= f) := by
  intro q t hs ht
  rw [List.flatMap_cons] at hs
  rcases Bytes.cut_append hs with ⟨t₁, hname, ht₁⟩ | ⟨q₂, rfl, hrest⟩
  · obtain ⟨cause, hcause, hshort⟩ := field_cut hr f hname ht₁
    exact ⟨name, cause, hcause, hshort, firstCut_head hname ht₁⟩
  · obtain ⟨found, cause, hcause, hshort, hfirst⟩ := hf q₂ t hrest ht
    refine ⟨found, cause, ?_, hshort, hfirst.cons⟩
    rw [field_bind hr]
    exact hcause

end Cut

/-! ## Headers -/

theorem endsInCut_scan (h : Header) : EndsInCut h.fieldBytes HeaderField.all scan := by
  refine .field (a := arity) (Spells.arrayLength arity) ?_
  -- the count that was read is the right one, so the scan goes on to the fields
  show EndsInCut _ _ (field .versionId (Read.fixedBin 16) >>= _)
  refine .field (Spells.fixedBin h.id (by decide)) ?_
  refine .field (Spells.int h.modTime) ?_
  refine .field (Spells.fixedBin h.signature (by decide)) ?_
  refine .field (Spells.uint8 h.type) ?_
  exact .field (Spells.uint8 h.flags.bits) (.nil _)

/-- **A header is read back from its bytes, or found cut in the right field.**
Whatever follows them is left as it is; and of a strict prefix of them, decoding
says that bytes are missing, in the first field that is not whole. -/
theorem read_or_cut (h : Header) (rest : Bytes) :
    read (h.bytes ++ rest) = (.ok h, rest) ∧ decode h.bytes = .ok h ∧
      ∀ q, q <+: h.bytes → q ≠ h.bytes →
        ∃ name cause, decode q = .error (.truncatedHeader name cause) ∧ cause.IsShort ∧
          FirstCut h.fieldBytes HeaderField.all q name := by
  refine ⟨h.read_bytes_append rest, h.decode_bytes, ?_⟩
  rintro q ⟨t, hs⟩ hne
  have ht : t ≠ [] := by
    rintro rfl
    rw [List.append_nil] at hs
    exact hne hs
  rw [bytes_eq_flatMap] at hs
  exact h.endsInCut_scan q t hs ht

/-- The byte behind the identifier opens a time of two bytes: with it alone, the
time is missing. -/
theorem read_or_cut_in_time :
    let h := sample 7 300
    let q := h.bytes.take 20
    q <+: h.bytes ∧ q ≠ h.bytes ∧
      ∃ cause, decode q = .error (.truncatedHeader .modTime cause) ∧ cause.IsShort := by
  intro h q
  have hfront : q <+: h.bytes := List.take_prefix 20 h.bytes
  have hne : q ≠ h.bytes := by decide
  obtain ⟨-, -, hcut⟩ := h.read_or_cut []
  obtain ⟨name, cause, hcause, hshort, -⟩ := hcut q hfront hne
  have htime : decode q = .error (.truncatedHeader .modTime (.short 2 0)) := by decide +kernel
  rw [htime] at hcause
  cases hcause
  exact ⟨hfront, hne, _, htime, hshort⟩

end Version.Header

end MetaRecord
