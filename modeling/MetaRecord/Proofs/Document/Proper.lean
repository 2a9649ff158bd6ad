/-
# `MetaRecord.Proofs.Document.Proper` — documents can be spelled

Whatever bytes a record holds, the document made from them is a value that the
grammar of texts can spell: a number that is not finite is rendered as null, and
every object is made by setting one member after another.

What a reader gives holds of all its results (`Gives`), and follows the reader's
own structure, so nothing has to be said about the bytes.

Main statements: `gives_value` and `proper_record`.
-/
import MetaRecord.Document.Record
import MetaRecord.Proofs.Document.Complete
import MetaRecord.Proofs.Document.Whole
import MetaRecord.Proofs.Json.Printing

namespace MetaRecord.Json

variable {json value : Json} {members : List (String × Json)}

/-! ## Objects -/

theorem Members.mem_of_mem_ofList {m : String × Json} (h : m ∈ Members.ofList members) :
    m ∈ members := by
  induction members using List.reverseRecOn with
  | nil => exact h
  | append_singleton members e ih =>
      rw [Members.ofList_concat] at h
      rw [List.mem_append, List.mem_singleton]
      rcases Members.mem_insert h with rfl | hm
      · exact Or.inr rfl
      · exact Or.inl (ih hm)

theorem Proper.object (h : ∀ m ∈ members, Proper m.2) : Proper (Json.object members) :=
  .obj (Members.sorted_ofList members) fun m hm => h m (Members.mem_of_mem_ofList hm)

theorem Proper.setMember (h : Proper json) (name : String) (hvalue : Proper value) :
    Proper (json.setMember name value) := by
  cases h with
  | obj hsorted h =>
      refine .obj (Members.sorted_insert hsorted) fun m hm => ?_
      rcases Members.mem_insert hm with rfl | hm
      · exact hvalue
      · exact h m hm
  | null => exact .null
  | bool b => exact .bool b
  | int n => exact .int n
  | float h => exact .float h
  | str s => exact .str s
  | arr h => exact .arr h

end MetaRecord.Json

namespace MetaRecord.MessagePack.Read

variable {α β : Type} {r : Read α} {f : α → Read β} {P : α → Prop} {Q : β → Prop}

/-! ## What a read gives -/

/-- Every result of the read is one of `P`. -/
def Gives (r : Read α) (P : α → Prop) : Prop := ∀ buf a rest, r buf = .ok (a, rest) → P a

namespace Gives

theorem pure {a : α} (h : P a) : Gives (Pure.pure a) P := by
  intro buf b rest hrun
  rwa [← (pure_eq_ok_iff.mp hrun).1]

theorem throw (e : ReadError) : Gives (throw e : Read α) P :=
  fun _ _ _ hrun => absurd hrun throw_ne_ok

theorem bind (hr : Gives r P) (hf : ∀ a, P a → Gives (f a) Q) : Gives (r >>= f) Q := by
  intro buf b rest hrun
  obtain ⟨a, mid, hread, hrest⟩ := bind_eq_ok_iff.mp hrun
  exact hf a (hr buf a mid hread) mid b rest hrest

/-- Whatever is read first, the rest gives what it gives. -/
theorem after (hf : ∀ a, Gives (f a) Q) : Gives (r >>= f) Q :=
  bind (P := fun _ => True) (fun _ _ _ _ => trivial) fun a _ => hf a

theorem times (hr : Gives r P) (n : Nat) {done : List α} (hdone : ∀ a ∈ done, P a) :
    Gives (times r n done) fun items => ∀ a ∈ items, P a := by
  induction n generalizing done with
  | zero => exact .pure fun a ha => hdone a (List.mem_reverse.mp ha)
  | succ n ih =>
      rw [times_succ]
      exact hr.bind fun a ha => ih (List.forall_mem_cons.mpr ⟨ha, hdone⟩)

end Gives

end MetaRecord.MessagePack.Read

namespace MetaRecord.Document

open Json (Proper)
open MessagePack (Lead Read)
open MessagePack.Read (Extension Gives)

/-! ## Values -/

theorem proper_extension (e : Extension) : Proper (extension e) := by
  rw [extension]
  split
  · exact .str _
  · refine .object fun m hm => ?_
    simp only [List.mem_cons, List.not_mem_nil, or_false] at hm
    rcases hm with rfl | rfl
    · exact .str _
    · exact .int _

theorem gives_pair {value : Read Json} (h : Gives value Proper) :
    Gives (pair value) fun m => Proper m.2 :=
  .after fun _ => h.bind fun _ hv => .pure hv

/-- Whatever is rendered can be spelled. -/
theorem gives_value (levels : Nat) : Gives (value levels) Proper := by
  induction levels with
  | zero => exact .throw _
  | succ levels ih =>
      have hnone {α : Type} {P : α → Prop} : ∀ a ∈ ([] : List α), P a := fun _ h =>
        absurd h List.not_mem_nil
      rw [value]
      refine .after fun b => ?_
      split
      · exact .after fun _ => .pure .null
      · exact .after fun b => .pure (.bool b)
      · exact .after fun n => .pure (.int n.toNat)
      · exact .after fun n => .pure (.int n.toNat)
      · exact .after fun n => .pure (.int n.toInt)
      · exact .after fun n => .pure (.int n.toInt)
      · refine .after fun x => .pure ?_
        split
        · next hfinite => exact .float hfinite
        · exact .null
      · exact .after fun s => .pure (.str s)
      · exact .after fun s => .pure (.str s)
      · exact .after fun data => .pure (.str _)
      · exact .after fun n => (ih.times n.toNat hnone).bind fun items h => .pure (.arr h)
      · exact .after fun n => (ih.times n.toNat hnone).bind fun items h => .pure (.arr h)
      · exact .after fun n => ((gives_pair ih).times n.toNat hnone).bind fun members h =>
          .pure (.object h)
      · exact .after fun n => ((gives_pair ih).times n.toNat hnone).bind fun members h =>
          .pure (.object h)
      · exact .after fun e => .pure (proper_extension e)
      · exact .after fun e => .pure (proper_extension e)
      · exact .throw _

theorem proper_of_render {buf rest : Bytes} {v : Json} (h : render buf = .ok (v, rest)) :
    Proper v := gives_value _ _ _ _ h

/-! ## Documents -/

theorem proper_standing (status : Checksum.Status) : Proper (standing status) := by
  cases status with
  | absent | valid =>
      refine .object fun m hm => ?_
      rw [List.mem_singleton.mp hm]
      exact .str _
  | mismatch stored computed =>
      refine .object fun m hm => ?_
      simp only [List.mem_cons, List.not_mem_nil, or_false] at hm
      rcases hm with rfl | rfl | rfl
      · exact .str _
      · exact .int _
      · exact .int _

theorem proper_summary (h : Version.Header) : Proper (summary h) := by
  refine .object fun m hm => ?_
  simp only [List.mem_cons, List.not_mem_nil, or_false] at hm
  rcases hm with rfl | rfl | rfl | rfl | rfl | rfl
  · exact .str _
  · exact .str _
  · exact .str _
  · exact .int _
  · exact .str _
  · exact .int _

theorem proper_sizes (store : Inline.Store) : Proper (sizes store) := by
  refine .object fun m hm => ?_
  obtain ⟨entry, -, rfl⟩ := List.mem_map.mp hm
  exact .int _

theorem proper_of_version {position : Nat} {entry : Version.Entry} {v : Json}
    (h : version position entry = .ok v) : Proper v := by
  obtain ⟨m, hrender, rfl⟩ := version_eq_ok_iff.mp h
  refine .object fun m hm => ?_
  simp only [List.mem_cons, List.not_mem_nil, or_false] at hm
  rcases hm with rfl | rfl | rfl
  · exact .int _
  · exact proper_summary _
  · exact proper_of_render hrender

theorem Documents.proper {position : Nat} {entries : List Version.Entry} {vs : List Json}
    (h : Documents position entries vs) : ∀ v ∈ vs, Proper v := by
  induction h with
  | nil => exact fun _ hv => absurd hv List.not_mem_nil
  | cons hversion _ ih => exact List.forall_mem_cons.mpr ⟨proper_of_version hversion, ih⟩

theorem proper_content {p : Record.Payload} {body : String × Json} (h : content p = .ok body) :
    Proper body.2 := by
  cases p with
  | legacy buf =>
      obtain ⟨⟨v, rest⟩, hrender, hbody⟩ := bind_eq_ok.mp h
      obtain rfl := Except.ok.inj hbody
      exact proper_of_render (mapError_eq_ok.mp hrender)
  | single buf =>
      obtain ⟨v, hmetadata, hbody⟩ := bind_eq_ok.mp h
      obtain rfl := Except.ok.inj hbody
      exact proper_of_render (metadata_eq_ok_iff.mp hmetadata)
  | multi =>
      obtain ⟨vs, hdocuments, rfl⟩ := content_multi h
      exact .arr hdocuments.proper

/-- Whatever a record holds, its document can be spelled. -/
theorem proper_record {r : Record} {includeInline : Bool} {doc : Json}
    (h : record r includeInline = .ok doc) : Proper doc := by
  obtain ⟨body, hbody, rfl⟩ := record_eq_ok_iff.mp h
  refine .object fun m hm => ?_
  rw [List.mem_append, ownMembers] at hm
  simp only [List.mem_cons, List.not_mem_nil, or_false] at hm
  rcases hm with (rfl | rfl | rfl | rfl) | hm
  · exact .int _
  · exact .int _
  · exact proper_standing _
  · exact proper_content hbody
  · obtain ⟨store, -, rfl⟩ := Option.map_eq_some_iff.mp (Option.mem_toList.mp hm)
    exact proper_sizes store

end MetaRecord.Document
