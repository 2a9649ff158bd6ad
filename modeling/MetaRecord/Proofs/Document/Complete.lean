/-
# `MetaRecord.Proofs.Document.Complete` — a document shows the whole record

A document is made after everything in it was rendered, so there is no document
with a part missing.  What has to be rendered depends on the layout.  Legacy
metadata are the value at the front of a payload, and bytes may follow it; the
metadata of one version, and those of each version of an index, are one value
and nothing else.

The versions are rendered one after the other up to the first that cannot be.
`Documents` and `FirstUnfit` say what the loop finds in either case, and they
follow the list of entries as the loop does.

The inline store is no part of this.  It was checked when the record was
decoded, so listing it cannot fail, and its member is the last to be set and has
a name of its own.

Main statement: `record_complete`.
-/
import MetaRecord.Document.Record
import MetaRecord.Proofs.Json.Members
import MetaRecord.Proofs.Version.Codec

namespace MetaRecord.Document

open MessagePack (ReadError)

/-! ## Metadata -/

section Metadata

variable {buf : Bytes}

/-- The bytes are one value that can be rendered. -/
def Whole (buf : Bytes) : Prop := ∃ v, render buf = .ok (v, [])

/-- Why the bytes are not one value that can be rendered: there is none at their
front, or there are bytes behind it. -/
inductive Unfit (buf : Bytes) : ReadError → Prop
  | refused {cause : ReadError} : render buf = .error cause → Unfit buf cause
  | trailing {v : Json} {rest : Bytes} : render buf = .ok (v, rest) → rest ≠ [] →
      Unfit buf (.wrongLength (buf.length - rest.length) buf.length)

theorem metadata_eq_ok_iff {v : Json} : metadata buf = .ok v ↔ render buf = .ok (v, []) := by
  rw [metadata]
  cases render buf with
  | error cause => simp
  | ok result =>
      obtain ⟨w, rest⟩ := result
      cases rest <;> simp

theorem metadata_eq_error_iff {e : DecodeError} :
    metadata buf = .error e ↔ ∃ cause, e = .malformedMetadata cause ∧ Unfit buf cause := by
  constructor
  · intro h
    rw [metadata] at h
    split at h
    · next cause hrender => exact ⟨cause, (Except.error.inj h).symm, .refused hrender⟩
    · cases h
    · next v rest hrest hrender =>
        exact ⟨_, (Except.error.inj h).symm, .trailing hrender fun hnil => hrest (by rw [hnil])⟩
  · rintro ⟨cause, rfl, h⟩
    cases h with
    | refused hrender => rw [metadata, hrender]
    | @trailing v rest hrender hrest =>
        rw [metadata, hrender]
        cases rest with
        | nil => exact absurd rfl hrest
        | cons b rest => rfl

end Metadata

/-! ## Versions -/

section Versions

variable {position : Nat} {entry : Version.Entry} {entries : List Version.Entry}
  {done vs : List Json} {e : DecodeError}

theorem version_eq_ok_iff {v : Json} :
    version position entry = .ok v ↔ ∃ m, render entry.metadata = .ok (m, []) ∧
      v = Json.object
        [("Idx", .int position), ("Header", summary entry.header), ("Metadata", m)] := by
  rw [version, bind_eq_ok]
  constructor
  · rintro ⟨m, hm, h⟩
    exact ⟨m, metadata_eq_ok_iff.mp hm, (Except.ok.inj h).symm⟩
  · rintro ⟨m, hm, rfl⟩
    exact ⟨m, metadata_eq_ok_iff.mpr hm, rfl⟩

theorem version_eq_error_iff :
    version position entry = .error e ↔
      ∃ cause, e = .malformedMetadata cause ∧ Unfit entry.metadata cause := by
  rw [← metadata_eq_error_iff, version, bind_eq_error]
  constructor
  · rintro (h | ⟨_, -, h⟩)
    · exact h
    · exact nomatch h
  · exact Or.inl

/-- Each entry has its document, the first one for `position`. -/
inductive Documents : Nat → List Version.Entry → List Json → Prop
  | nil (position : Nat) : Documents position [] []
  | cons {position : Nat} {entry : Version.Entry} {entries : List Version.Entry} {v : Json}
      {vs : List Json} : version position entry = .ok v → Documents (position + 1) entries vs →
      Documents position (entry :: entries) (v :: vs)

/-- The first entry whose metadata cannot be rendered has the given cause. -/
inductive FirstUnfit : List Version.Entry → ReadError → Prop
  | here {entry : Version.Entry} {entries : List Version.Entry} {cause : ReadError} :
      Unfit entry.metadata cause → FirstUnfit (entry :: entries) cause
  | later {entry : Version.Entry} {entries : List Version.Entry} {cause : ReadError} :
      Whole entry.metadata → FirstUnfit entries cause → FirstUnfit (entry :: entries) cause

theorem versions_eq_ok_iff :
    versions position done entries = .ok vs ↔
      ∃ ws, Documents position entries ws ∧ vs = done.reverse ++ ws := by
  -- the loop hands on the documents made so far, so they vary with the position
  induction entries generalizing position done with
  | nil =>
      rw [versions, Except.ok.injEq]
      constructor
      · rintro rfl
        exact ⟨[], .nil position, (List.append_nil _).symm⟩
      · rintro ⟨_, ⟨⟩, rfl⟩
        exact (List.append_nil _).symm
  | cons entry entries ih =>
      rw [versions]
      cases hv : version position entry with
      | error e =>
          constructor
          · intro h
            cases h
          · rintro ⟨_, hws, -⟩
            cases hws with
            | cons hw _ => exact nomatch hv.symm.trans hw
      | ok v =>
          dsimp only
          rw [ih, List.reverse_cons]
          constructor
          · rintro ⟨ws, hws, rfl⟩
            exact ⟨v :: ws, .cons hv hws, List.append_assoc ..⟩
          · rintro ⟨_, hws, rfl⟩
            cases hws with
            | @cons _ _ _ w ws hw hws =>
                obtain rfl := Except.ok.inj (hv.symm.trans hw)
                exact ⟨ws, hws, List.append_cons ..⟩

theorem versions_eq_error_iff :
    versions position done entries = .error e ↔
      ∃ cause, e = .malformedMetadata cause ∧ FirstUnfit entries cause := by
  induction entries generalizing position done with
  | nil =>
      rw [versions]
      constructor
      · intro h
        cases h
      · rintro ⟨_, -, ⟨⟩⟩
  | cons entry entries ih =>
      rw [versions]
      cases hv : version position entry with
      | error e' =>
          obtain ⟨cause, rfl, hunfit⟩ := version_eq_error_iff.mp hv
          dsimp only
          rw [Except.error.injEq]
          constructor
          · rintro rfl
            exact ⟨cause, rfl, .here hunfit⟩
          · rintro ⟨cause', rfl, hfirst⟩
            cases hfirst with
            | here hunfit' =>
                have hv' : version position entry = .error (.malformedMetadata cause') :=
                  version_eq_error_iff.mpr ⟨cause', rfl, hunfit'⟩
                exact Except.error.inj (hv.symm.trans hv')
            | later hwhole _ =>
                obtain ⟨m, hm⟩ := hwhole
                exact nomatch hv.symm.trans (version_eq_ok_iff.mpr ⟨m, hm, rfl⟩)
      | ok v =>
          obtain ⟨m, hm, -⟩ := version_eq_ok_iff.mp hv
          dsimp only
          rw [ih]
          constructor
          · rintro ⟨cause, rfl, hfirst⟩
            exact ⟨cause, rfl, .later ⟨m, hm⟩ hfirst⟩
          · rintro ⟨cause, rfl, hfirst⟩
            cases hfirst with
            | here hunfit =>
                have hv' : version position entry = .error (.malformedMetadata cause) :=
                  version_eq_error_iff.mpr ⟨cause, rfl, hunfit⟩
                exact nomatch hv.symm.trans hv'
            | later _ hfirst => exact ⟨cause, rfl, hfirst⟩

theorem exists_documents_iff (position : Nat) :
    (∃ vs, Documents position entries vs) ↔ ∀ entry ∈ entries, Whole entry.metadata := by
  induction entries generalizing position with
  | nil => exact ⟨fun _ _ h => absurd h List.not_mem_nil, fun _ => ⟨[], .nil position⟩⟩
  | cons entry entries ih =>
      rw [List.forall_mem_cons, ← ih (position + 1)]
      constructor
      · rintro ⟨_, hvs⟩
        cases hvs with
        | cons hv hvs =>
            obtain ⟨m, hm, -⟩ := version_eq_ok_iff.mp hv
            exact ⟨⟨m, hm⟩, _, hvs⟩
      · rintro ⟨⟨m, hm⟩, vs, hvs⟩
        exact ⟨_, .cons (version_eq_ok_iff.mpr ⟨m, hm, rfl⟩) hvs⟩

theorem Documents.length_eq (h : Documents position entries vs) : vs.length = entries.length := by
  induction h with
  | nil => rfl
  | cons _ _ ih => rw [List.length_cons, List.length_cons, ih]

theorem Documents.getElem? (h : Documents position entries vs) {i : Nat}
    (hi : entries[i]? = some entry) : ∃ v, vs[i]? = some v ∧ version (position + i) entry = .ok v := by
  induction h generalizing i with
  | nil => cases hi
  | @cons position first entries v vs hv _ ih =>
      cases i with
      | zero =>
          obtain rfl := Option.some.inj hi
          exact ⟨v, rfl, hv⟩
      | succ i =>
          obtain ⟨w, hw, hversion⟩ := ih hi
          rw [Nat.add_right_comm, Nat.add_assoc] at hversion
          exact ⟨w, hw, hversion⟩

end Versions

/-! ## Payloads -/

/-- What is to be shown of the payload can be rendered. -/
def Renderable : Record.Payload → Prop
  | .legacy metadata => ∃ v rest, render metadata = .ok (v, rest)
  | .single metadata _ _ => Whole metadata
  | .multi index _ _ _ => ∀ entry ∈ index.entries, Whole entry.metadata

/-- Why it cannot be; of several versions the first one counts. -/
def Unrenderable : Record.Payload → ReadError → Prop
  | .legacy metadata, cause => render metadata = .error cause
  | .single metadata _ _, cause => Unfit metadata cause
  | .multi index _ _ _, cause => FirstUnfit index.entries cause

section Payload

variable {p : Record.Payload}

theorem exists_content_iff : (∃ body, content p = .ok body) ↔ Renderable p := by
  cases p with
  | legacy metadata =>
      simp only [content, bind_eq_ok, mapError_eq_ok, Renderable]
      constructor
      · rintro ⟨_, ⟨v, rest⟩, hrender, -⟩
        exact ⟨v, rest, hrender⟩
      · rintro ⟨v, rest, hrender⟩
        exact ⟨_, ⟨v, rest⟩, hrender, rfl⟩
  | single metadata _ _ =>
      simp only [content, bind_eq_ok, metadata_eq_ok_iff, Renderable, Whole]
      constructor
      · rintro ⟨_, v, hrender, -⟩
        exact ⟨v, hrender⟩
      · rintro ⟨v, hrender⟩
        exact ⟨_, v, hrender, rfl⟩
  | multi index _ _ _ =>
      simp only [content, bind_eq_ok, versions_eq_ok_iff, Renderable]
      rw [← exists_documents_iff 0]
      constructor
      · rintro ⟨_, _, ⟨vs, hvs, -⟩, -⟩
        exact ⟨vs, hvs⟩
      · rintro ⟨vs, hvs⟩
        exact ⟨_, _, ⟨vs, hvs, rfl⟩, rfl⟩

theorem content_eq_error_iff {e : DecodeError} :
    content p = .error e ↔ ∃ cause, e = .malformedMetadata cause ∧ Unrenderable p cause := by
  cases p with
  | legacy metadata =>
      simp only [content, bind_eq_error, mapError_eq_error, Unrenderable]
      constructor
      · rintro (⟨cause, hrender, rfl⟩ | ⟨_, -, h⟩)
        · exact ⟨cause, rfl, hrender⟩
        · cases h
      · rintro ⟨cause, rfl, hrender⟩
        exact Or.inl ⟨cause, hrender, rfl⟩
  | single metadata _ _ =>
      simp only [content, bind_eq_error, metadata_eq_error_iff, Unrenderable]
      constructor
      · rintro (h | ⟨_, -, h⟩)
        · exact h
        · cases h
      · exact Or.inl
  | multi index _ _ _ =>
      simp only [content, bind_eq_error, versions_eq_error_iff, Unrenderable]
      constructor
      · rintro (h | ⟨_, -, h⟩)
        · exact h
        · cases h
      · exact Or.inl

theorem content_multi {index : Version.Index} {blob : Bytes} {checksum : Option UInt32}
    {store : Inline.Store} {body : String × Json}
    (h : content (.multi index blob checksum store) = .ok body) :
    ∃ vs, Documents 0 index.entries vs ∧ body = ("Versions", .arr vs) := by
  obtain ⟨vs, hversions, hbody⟩ := bind_eq_ok.mp h
  obtain ⟨_, hvs, rfl⟩ := versions_eq_ok_iff.mp hversions
  exact ⟨vs, hvs, (Except.ok.inj hbody).symm⟩

theorem content_name {body : String × Json} (h : content p = .ok body) :
    body.1 = "Metadata" ∨ body.1 = "Versions" := by
  cases p with
  | legacy | single =>
      obtain ⟨_, -, hbody⟩ := bind_eq_ok.mp h
      obtain rfl := Except.ok.inj hbody
      exact Or.inl rfl
  | multi =>
      obtain ⟨_, -, rfl⟩ := content_multi h
      exact Or.inr rfl

end Payload

/-! ## Records -/

section Record

variable {r : Record} {includeInline : Bool} {doc : Json} {body : String × Json}

/-- The members that every document has. -/
def ownMembers (r : Record) (body : String × Json) : List (String × Json) :=
  [("Major", .int r.version.major.toNat), ("Minor", .int r.version.minor.toNat),
    ("Checksum", standing r.status), body]

/-- The inline store that is listed, if any is. -/
def listed? (r : Record) (includeInline : Bool) : Option Inline.Store :=
  if includeInline then r.store? else none

theorem record_eq_ok_iff :
    record r includeInline = .ok doc ↔ ∃ body, content r.payload = .ok body ∧
      doc = Json.object (ownMembers r body ++
        ((listed? r includeInline).map fun store => ("Inline", sizes store)).toList) := by
  rw [record, bind_eq_ok]
  constructor
  · rintro ⟨body, hbody, h⟩
    exact ⟨body, hbody, (Except.ok.inj h).symm⟩
  · rintro ⟨body, hbody, rfl⟩
    exact ⟨body, hbody, rfl⟩

theorem record_eq_error_iff {e : DecodeError} :
    record r includeInline = .error e ↔ content r.payload = .error e := by
  rw [record, bind_eq_error]
  constructor
  · rintro (h | ⟨_, -, h⟩)
    · exact h
    · cases h
  · exact Or.inl

/-- A document has its own members, and the inline store under a name that none
of them has. -/
theorem member?_record (h : record r includeInline = .ok doc) :
    ∃ body, content r.payload = .ok body ∧
      doc.member? "Inline" = (listed? r includeInline).map sizes ∧
      ∀ name, name ≠ "Inline" → doc.member? name = (Json.object (ownMembers r body)).member? name := by
  obtain ⟨body, hbody, rfl⟩ := record_eq_ok_iff.mp h
  have hown : (Json.object (ownMembers r body)).member? "Inline" = none := by
    rw [Json.member?_object]
    rcases content_name hbody with hname | hname
    · simp [ownMembers, hname]
    · simp [ownMembers, hname]
  refine ⟨body, hbody, ?_⟩
  -- set last and under a name of its own, the store's member hides no other
  cases listed? r includeInline with
  | none =>
      rw [Option.map_none, Option.toList_none, List.append_nil]
      exact ⟨hown, fun name _ => rfl⟩
  | some store =>
      rw [Option.map_some, Option.toList_some]
      refine ⟨?_, fun name hname => ?_⟩
      · rw [Json.member?_object_concat, if_pos rfl, Option.map_some]
      · rw [Json.member?_object_concat, if_neg hname.symm]

theorem isSome_listed? :
    (listed? r includeInline).isSome = true ↔
      includeInline = true ∧ r.payload.layout ≠ .legacy := by
  cases includeInline with
  | false => simp [listed?]
  | true => cases hp : r.payload <;> simp [listed?, Record.store?, hp, Record.Payload.layout]

theorem exists_record_iff (r : Record) (includeInline : Bool) :
    (∃ doc, record r includeInline = .ok doc) ↔ Renderable r.payload := by
  rw [← exists_content_iff]
  simp only [record_eq_ok_iff]
  constructor
  · rintro ⟨_, body, hbody, -⟩
    exact ⟨body, hbody⟩
  · rintro ⟨body, hbody⟩
    exact ⟨_, body, hbody, rfl⟩

/-- What a summary shows of a header. -/
theorem member?_summary_iff {h : Version.Header} {name : String} {value : Json} :
    (summary h).member? name = some value ↔
      (name, value) ∈
        [("VersionID", Json.str (Bytes.hex h.id.bytes)), ("ModTime", .str h.instant.text),
          ("Signature", .str (Bytes.hex h.signature.bytes)), ("Type", .int h.type.toNat),
          ("TypeName", .str h.typeName), ("Flags", .int h.flags.bits.toNat)] := by
  refine Json.member?_object_eq_some_iff ?_
  show ["VersionID", "ModTime", "Signature", "Type", "TypeName", "Flags"].Nodup
  decide

/-- The element of the document that shows a version. -/
structure Shows (v : Json) (position : Nat) (entry : Version.Entry) : Prop where
  position : v.member? "Idx" = some (.int position)
  header : v.member? "Header" = some (summary entry.header)
  metadata : ∃ m, render entry.metadata = .ok (m, []) ∧ v.member? "Metadata" = some m

theorem shows_of_version {position : Nat} {entry : Version.Entry} {v : Json}
    (h : version position entry = .ok v) : Shows v position entry := by
  obtain ⟨m, hm, rfl⟩ := version_eq_ok_iff.mp h
  have hnames : ([("Idx", Json.int position), ("Header", summary entry.header),
      ("Metadata", m)].map (·.1)).Nodup := by
    show ["Idx", "Header", "Metadata"].Nodup
    decide
  exact ⟨(Json.member?_object_eq_some_iff hnames).mpr (by simp),
    (Json.member?_object_eq_some_iff hnames).mpr (by simp), m, hm,
    (Json.member?_object_eq_some_iff hnames).mpr (by simp)⟩

theorem versions_shown {index : Version.Index} (h : record r includeInline = .ok doc)
    (hindex : r.index? = some index) :
    ∃ vs, doc.member? "Versions" = some (.arr vs) ∧ vs.length = index.entries.length ∧
      ∀ (i : Nat) entry, index.entries[i]? = some entry → ∃ v, vs[i]? = some v ∧ Shows v i entry := by
  obtain ⟨body, hbody, -, hown⟩ := member?_record h
  rw [hown "Versions" (by decide)]
  cases hp : r.payload with
  | legacy | single => simp [Record.index?, hp] at hindex
  | multi index' =>
      rw [Record.index?, hp] at hindex
      obtain rfl := Option.some.inj hindex
      rw [hp] at hbody
      obtain ⟨vs, hvs, rfl⟩ := content_multi hbody
      refine ⟨vs, ?_, hvs.length_eq, fun i entry hi => ?_⟩
      · simp [Json.member?_object, ownMembers]
      · obtain ⟨v, hv, hversion⟩ := hvs.getElem? hi
        rw [Nat.zero_add] at hversion
        exact ⟨v, hv, shows_of_version hversion⟩

/-- **A document is complete, or there is none.**  There is one exactly when
everything that it has to show can be rendered, and what is wrong otherwise is
the metadata, of several versions those of the first that cannot be.  An index is
shown with one element for each version, which has its position, its header and
its metadata.  Whether the inline store is listed decides only whether there is a
member for it, and a legacy record has no store. -/
theorem record_complete (r : Record) :
    (∀ includeInline,
      (∃ doc, record r includeInline = .ok doc) ↔ Renderable r.payload) ∧
    (∀ includeInline e, record r includeInline = .error e ↔
      ∃ cause, e = .malformedMetadata cause ∧ Unrenderable r.payload cause) ∧
    (∀ includeInline doc index, record r includeInline = .ok doc → r.index? = some index →
      ∃ vs, doc.member? "Versions" = some (.arr vs) ∧ vs.length = index.entries.length ∧
        ∀ (i : Nat) entry, index.entries[i]? = some entry →
          ∃ v, vs[i]? = some v ∧ Shows v i entry) ∧
    (∀ listing plain, record r true = .ok listing → record r false = .ok plain →
      ∀ name, name ≠ "Inline" → listing.member? name = plain.member? name) ∧
    ∀ includeInline doc, record r includeInline = .ok doc →
      ((doc.member? "Inline").isSome = true ↔
        includeInline = true ∧ r.payload.layout ≠ .legacy) := by
  refine ⟨exists_record_iff r, ?_, fun _ _ _ => versions_shown, ?_, ?_⟩
  · intro includeInline e
    rw [record_eq_error_iff, content_eq_error_iff]
  · intro listing plain hlisting hplain name hname
    obtain ⟨_, hbody, -, hown⟩ := member?_record hlisting
    obtain ⟨_, hbody', -, hown'⟩ := member?_record hplain
    obtain rfl := Except.ok.inj (hbody.symm.trans hbody')
    rw [hown name hname, hown' name hname]
  · intro includeInline doc hdoc
    obtain ⟨_, -, hinline, -⟩ := member?_record hdoc
    rw [hinline, Option.isSome_map, isSome_listed?]

/-- Two versions, of which the older one has the integer 42 for its metadata. -/
def twoVersions : Record.Draft :=
  (Record.Draft.empty.addVersion (.sample 1 10) [0x2a]).addVersion (.sample 2 20) [0xc0]

theorem record_complete_two_versions :
    ∃ r doc vs v, Record.decode twoVersions.bytes = .ok r ∧ record r true = .ok doc ∧
      (doc.member? "Inline").isSome = true ∧ doc.member? "Versions" = some (.arr vs) ∧
      vs.length = 2 ∧ vs[1]? = some v ∧ v.member? "Idx" = some (.int 1) ∧
      v.member? "Metadata" = some (.int 42) ∧
      ∃ header, v.member? "Header" = some header ∧
        header.member? "ModTime" = some (.str "1970-01-01T00:00:00.000000010Z") := by
  let index := twoVersions.index
  let r : Record := ⟨.current, .multi index index.encode (some (Checksum.ofBlob index.encode)) .empty⟩
  have hdecode : Record.decode twoVersions.bytes = .ok r := by decide +kernel
  have hentries : index.entries = [.new (.sample 2 20) [0xc0], .new (.sample 1 10) [0x2a]] := by
    decide +kernel
  obtain ⟨hexists, -, hversions, -, hinline⟩ := record_complete r
  have hrenderable : Renderable r.payload := by
    show ∀ entry ∈ index.entries, Whole entry.metadata
    rw [hentries]
    simp only [List.forall_mem_cons, List.not_mem_nil, false_implies, implies_true, and_true]
    exact ⟨⟨.null, rfl⟩, ⟨.int 42, rfl⟩⟩
  obtain ⟨doc, hdoc⟩ := (hexists true).mpr hrenderable
  obtain ⟨vs, hvs, hlen, hshown⟩ := hversions true doc index hdoc rfl
  rw [hentries] at hlen hshown
  obtain ⟨v, hv, hshows⟩ := hshown 1 _ rfl
  obtain ⟨m, hm, hmetadata⟩ := hshows.metadata
  have h42 : render [0x2a] = .ok (.int 42, []) := rfl
  obtain ⟨rfl, -⟩ := Prod.mk.inj (Except.ok.inj (h42.symm.trans hm))
  have htime : (Version.Header.sample 1 10).instant.text = "1970-01-01T00:00:00.000000010Z" := by
    decide +kernel
  refine ⟨r, doc, vs, v, hdecode, hdoc, (hinline true doc hdoc).mpr ⟨rfl, nofun⟩, hvs, hlen, hv,
    hshows.position, hmetadata, _, hshows.header, member?_summary_iff.mpr ?_⟩
  rw [← htime]
  exact List.mem_cons_of_mem _ List.mem_cons_self

end Record

end MetaRecord.Document
