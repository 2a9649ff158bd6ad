/-
# `MetaRecord.Proofs.Document.Agreement` — rendering and stepping over agree

`skip` steps over a value with a counter, `render` goes down into it.  Both
take the same bytes, but the rendering has two demands of its own: the value
must not nest too deeply, and its texts must be texts.  `Outline.Fits` and
`Outline.Legible` are these demands.  A text that is a map key is excepted, it
is shown whatever its bytes are.

`Settled good rest` says of a result that it succeeds and leaves `rest` if
`good` holds, and that it is one of the two refusals otherwise.  It is closed
under sequencing, with the conjunction of the demands, so that it follows the
shape of a rendering as its demands follow the shape of a value.

Main statements: `Settled.bind` and `Settled.times`; `pair_settled`, where keys
differ from other values; `value_settled`, by induction on the levels that are
left; and `render_agrees`.
-/
import MetaRecord.Proofs.Document.Whole

namespace MetaRecord.MessagePack

/-! ## What a rendering demands of a value -/

namespace Outline

/-- The values directly in a value. -/
def children : Outline → List Outline
  | plain | text _ => []
  | array items => items
  | map pairs => members pairs

/-- The value has at most `levels` levels, its own among them: it fits `n + 1`
levels if it nests at most `n` levels below its root. -/
def Fits : (levels : Nat) → Outline → Prop
  | 0, _ => False
  | levels + 1, v => ∀ u ∈ v.children, u.Fits levels

def IsText : Outline → Prop
  | text _ => True
  | _ => False

/-- Every text in the value is UTF-8, those that are map keys themselves
excepted. -/
inductive Legible : Outline → Prop
  | plain : Legible plain
  | text {data : Bytes} : (Text.ofUtf8? data).isSome → Legible (text data)
  | array {items : List Outline} : (∀ v ∈ items, Legible v) → Legible (array items)
  | map {pairs : List (Outline × Outline)} :
      (∀ pair ∈ pairs, ¬ pair.1.IsText → Legible pair.1) → (∀ pair ∈ pairs, Legible pair.2) →
      Legible (map pairs)

variable {levels : Nat} {v : Outline} {items : List Outline} {pairs : List (Outline × Outline)}

theorem forall_mem_members {P : Outline → Prop} :
    (∀ v ∈ members pairs, P v) ↔ ∀ pair ∈ pairs, P pair.1 ∧ P pair.2 := by
  induction pairs with
  | nil => simp [members]
  | cons pair pairs ih =>
      show (∀ v ∈ pair.1 :: pair.2 :: members pairs, P v) ↔ _
      simp only [List.forall_mem_cons, ih, and_assoc]

/-- A value is rendered with `levels` levels. -/
def Renders (levels : Nat) (v : Outline) : Prop := v.Fits levels ∧ v.Legible

/-- A value with no others in it fits wherever another one does. -/
theorem Fits.of_children {u : Outline} (hv : v.children = []) (hu : u.Fits levels) :
    v.Fits levels := by
  cases levels with
  | zero => exact hu
  | succ levels =>
      intro w hw
      rw [hv] at hw
      exact nomatch hw

theorem renders_text_iff {data : Bytes} :
    (text data).Renders (levels + 1) ↔ (text data).Legible :=
  and_iff_right nofun

theorem renders_array_iff :
    (array items).Renders (levels + 1) ↔ ∀ v ∈ items, v.Renders levels := by
  constructor
  · rintro ⟨hfits, hlegible⟩ v hv
    cases hlegible with
    | array hitems => exact ⟨hfits v hv, hitems v hv⟩
  · exact fun h => ⟨fun v hv => (h v hv).1, .array fun v hv => (h v hv).2⟩

/-- What a pair must be like for its map to be rendered: a key that is a text
may have any bytes. -/
def PairRenders (levels : Nat) (pair : Outline × Outline) : Prop :=
  (pair.1.Fits levels ∧ (¬ pair.1.IsText → pair.1.Legible)) ∧ pair.2.Renders levels

theorem renders_map_iff :
    (map pairs).Renders (levels + 1) ↔ ∀ pair ∈ pairs, PairRenders levels pair := by
  constructor
  · rintro ⟨hfits, hlegible⟩ pair hpair
    have hfits := forall_mem_members.mp hfits pair hpair
    cases hlegible with
    | map hkeys hvalues =>
        exact ⟨⟨hfits.1, hkeys pair hpair⟩, hfits.2, hvalues pair hpair⟩
  · intro h
    refine ⟨forall_mem_members.mpr fun pair hpair => ?_, .map (fun pair hpair => ?_)
      fun pair hpair => ?_⟩
    · exact ⟨(h pair hpair).1.1, (h pair hpair).2.1⟩
    · exact (h pair hpair).1.2
    · exact (h pair hpair).2.2

end Outline

/-! ## Values one after the other -/

/-- The bytes are those of a key and then those of its value. -/
def EncodesPair (pair : Outline × Outline) (p : Bytes) : Prop :=
  ∃ p₁ p₂, Encodes pair.1 p₁ ∧ Encodes pair.2 p₂ ∧ p = p₁ ++ p₂

theorem EncodesAll.exists_items {vs : List Outline} {q : Bytes} (h : EncodesAll vs q) :
    ∃ ps, List.Forall₂ Encodes vs ps ∧ q = ps.flatten := by
  induction vs generalizing q with
  | nil =>
      cases h
      exact ⟨[], .nil, rfl⟩
  | cons v vs ih =>
      cases h with
      | @cons _ _ p _ hv hvs =>
          obtain ⟨ps, hps, rfl⟩ := ih hvs
          exact ⟨p :: ps, .cons hv hps, rfl⟩

theorem EncodesAll.exists_pairs {pairs : List (Outline × Outline)} {q : Bytes}
    (h : EncodesAll (Outline.members pairs) q) :
    ∃ ps, List.Forall₂ EncodesPair pairs ps ∧ q = ps.flatten := by
  induction pairs generalizing q with
  | nil =>
      cases h
      exact ⟨[], .nil, rfl⟩
  | cons pair pairs ih =>
      cases h with
      | @cons _ _ p₁ _ hkey h =>
          cases h with
          | @cons _ _ p₂ _ hvalue hpairs =>
              obtain ⟨ps, hps, rfl⟩ := ih hpairs
              exact ⟨(p₁ ++ p₂) :: ps, .cons ⟨p₁, p₂, hkey, hvalue, rfl⟩ hps,
                (List.append_assoc ..).symm⟩

end MetaRecord.MessagePack

namespace MetaRecord.Document

open MessagePack MessagePack.Read

/-! ## Results that the demands settle -/

/-- The result is a success that leaves `rest` if `good` holds, and otherwise
the refusal of a value that nests too deeply or of a text that is none. -/
inductive Settled {α : Type} (good : Prop) (rest : Bytes) :
    Except ReadError (α × Bytes) → Prop
  | rendered {a : α} : good → Settled good rest (.ok (a, rest))
  | tooDeep : ¬ good → Settled good rest (.error (.tooDeep maxDepth))
  | invalidText : ¬ good → Settled good rest (.error .invalidText)

namespace Settled

variable {α β : Type} {good good' : Prop} {buf mid rest : Bytes}
  {result : Except ReadError (α × Bytes)} {r : Read α}

theorem congr (h : Settled good rest result) (hgood : good ↔ good') :
    Settled good' rest result := by
  rw [← hgood]
  exact h

theorem of_leaves (h : Leaves r buf rest) (hgood : good) : Settled good rest (r buf) := by
  obtain ⟨a, h⟩ := h
  rw [h]
  exact .rendered hgood

theorem bind {f : α → Read β} (hr : Settled good mid (r buf))
    (hf : ∀ a, Settled good' rest (f a mid)) : Settled (good ∧ good') rest ((r >>= f) buf) := by
  show Settled _ _ (r buf >>= fun x => f x.1 x.2)
  generalize r buf = result at hr
  cases hr with
  | @rendered a hgood => exact (hf a).congr (and_iff_right hgood).symm
  | tooDeep hgood => exact .tooDeep fun h => hgood h.1
  | invalidText hgood => exact .invalidText fun h => hgood h.1

theorem bind_pure {g : α → β} (hr : Settled good rest (r buf)) :
    Settled good rest ((r >>= fun a => Pure.pure (g a)) buf) :=
  (hr.bind fun _ => .rendered trivial).congr (and_iff_left trivial)

/-- The demands on items that are read one after the other are those on each of
them. -/
theorem times {ι : Type} {demand : ι → Prop} {spells : ι → Bytes → Prop}
    (hr : ∀ i p rest, spells i p → Settled (demand i) rest (r (p ++ rest)))
    {items : List ι} {ps : List Bytes} (h : List.Forall₂ spells items ps) (done : List α) :
    Settled (∀ i ∈ items, demand i) rest
      (Read.times r items.length done (ps.flatten ++ rest)) := by
  induction h generalizing done with
  | nil => exact .rendered (by simp)
  | cons hp _ ih =>
      rw [List.length_cons, times_succ, List.flatten_cons, List.append_assoc]
      exact ((hr _ _ _ hp).bind fun a => ih (a :: done)).congr List.forall_mem_cons.symm

end Settled

/-! ## Keys -/

section Key

variable {b : UInt8} {mid : Bytes}

theorem mapKey_of_not_bin (h : ∀ count, (Lead.ofByte b).opening? ≠ some (.bin, count)) :
    mapKey (b :: mid) = strBytes (b :: mid) := by
  rw [mapKey, peek, ok_bind]
  split
  · next width hl => exact absurd (congrArg Lead.opening? hl) (h _)
  · rfl

theorem mapKey_of_opens_str {n : Nat} {p : Bytes} (hp : Opens .str n p) :
    mapKey (p ++ mid) = take n mid := by
  have hstr : mapKey (p ++ mid) = strBytes (p ++ mid) := by
    obtain ⟨code, count, q, hcode, rfl, -, -⟩ := hp.exists_count
    exact mapKey_of_not_bin fun _ => Lead.opening?_ne_of_family hcode nofun
  rw [hstr, strBytes_eq, opened_of_opens hp]

theorem mapKey_of_opens_bin {n : Nat} {p : Bytes} (hp : Opens .bin n p) :
    mapKey (p ++ mid) = take n mid := by
  have hbin : mapKey (p ++ mid) = bin (p ++ mid) := by
    obtain ⟨code, count, q, hcode, rfl, -, -⟩ := hp.exists_count
    rw [List.cons_append, mapKey, peek, ok_bind]
    cases hl : Lead.ofByte code <;> rw [hl] at hcode <;> cases hcode
  rw [hbin, bin_eq, opened_of_opens hp]

/-- A key that is neither a text nor a byte string is rendered like any value. -/
theorem key_of_other (r : Read Json)
    (hbin : ∀ count, (Lead.ofByte b).opening? ≠ some (.bin, count))
    (hstr : ∀ count, (Lead.ofByte b).opening? ≠ some (.str, count)) :
    key r (b :: mid) = (r >>= fun j => Pure.pure j.compact) (b :: mid) := by
  have hkey : mapKey (b :: mid) = .error (.wrongKind .str b) := by
    rw [mapKey_of_not_bin hbin, strBytes_eq]
    show openedBy .str take (.wrongKind .str) b mid = _
    rw [openedBy_of_no_opening hstr]
    rfl
  rw [key, hkey]
  rfl

theorem key_of_take {r : Read Json} {buf data rest : Bytes}
    (h : mapKey buf = take data.length (data ++ rest)) : Leaves (key r) buf rest := by
  rw [Leaves, key, h, take_append]
  exact ⟨_, rfl⟩

/-- A key that is a text or a byte string is taken whatever its bytes are. -/
theorem key_cases {v : Outline} {p : Bytes} (h : Encodes v p) (r : Read Json) (rest : Bytes) :
    ((v.children = [] ∧ (¬ v.IsText → v.Legible)) ∧ Leaves (key r) (p ++ rest) rest) ∨
      (¬ v.IsText ∧
        key r (p ++ rest) = (r >>= fun j => Pure.pure j.compact) (p ++ rest)) := by
  have hother {f : Family} {n : Nat} {p q : Bytes} (hp : Opens f n p) (hbin : f ≠ .bin)
      (hstr : f ≠ .str) :
      key r (p ++ q ++ rest) = (r >>= fun j => Pure.pure j.compact) (p ++ q ++ rest) := by
    obtain ⟨code, count, p', hcode, rfl, -, -⟩ := hp.exists_count
    exact key_of_other r (fun _ => Lead.opening?_ne_of_family hcode hbin)
      fun _ => Lead.opening?_ne_of_family hcode hstr
  cases h with
  | scalar hcode =>
      have hscalar := Lead.scalar?_ofByte.mpr hcode
      exact Or.inr ⟨id, key_of_other r (fun _ => Lead.opening?_ne_of_scalar hscalar)
        fun _ => Lead.opening?_ne_of_scalar hscalar⟩
  | @bin p data hp =>
      rw [List.append_assoc]
      exact Or.inl ⟨⟨rfl, fun _ => .plain⟩, key_of_take (mapKey_of_opens_bin hp)⟩
  | @str p data hp =>
      rw [List.append_assoc]
      exact Or.inl ⟨⟨rfl, fun h => absurd trivial h⟩, key_of_take (mapKey_of_opens_str hp)⟩
  | ext hp => exact Or.inr ⟨id, hother hp nofun nofun⟩
  | array hp => exact Or.inr ⟨id, hother hp nofun nofun⟩
  | map hp => exact Or.inr ⟨id, hother hp nofun nofun⟩

end Key

/-! ## Whole values -/

section Whole

variable {levels n : Nat} {f : Family} {v : Outline} {p mid rest : Bytes}

theorem pair_settled
    (hvalue : ∀ v p rest, Encodes v p → Settled (v.Renders levels) rest (value levels (p ++ rest)))
    {pair : Outline × Outline} (h : EncodesPair pair p) :
    Settled (Outline.PairRenders levels pair) rest (Document.pair (value levels) (p ++ rest)) := by
  obtain ⟨p₁, p₂, hk, hv, rfl⟩ := h
  rw [List.append_assoc]
  have hpair {good : Prop}
      (h : Settled good (p₂ ++ rest) (key (value levels) (p₁ ++ (p₂ ++ rest)))) :
      Settled (good ∧ pair.2.Renders levels) rest
        (Document.pair (value levels) (p₁ ++ (p₂ ++ rest))) :=
    h.bind fun _ => (hvalue _ _ _ hv).bind_pure
  rcases key_cases hk (value levels) (p₂ ++ rest) with ⟨⟨hempty, hlegible⟩, hkey⟩ | ⟨htext, hkey⟩
  · -- The key is taken even with no level left, but then its value is refused.
    refine (hpair (.of_leaves hkey trivial)).congr ⟨fun h => ?_, fun h => ⟨trivial, h.2⟩⟩
    exact ⟨⟨.of_children hempty h.2.1, hlegible⟩, h.2⟩
  · have hsettled := (hvalue _ _ (p₂ ++ rest) hk).bind_pure (g := Json.compact)
    rw [← hkey] at hsettled
    refine (hpair hsettled).congr (and_congr_left' ?_)
    simp only [Outline.Renders, htext, not_false_eq_true, forall_const]

theorem value_of_opens (hp : Opens f n p) (mid : Bytes) :
    value (levels + 1) (p ++ mid) = counted levels f (p ++ mid) := by
  obtain ⟨code, count, q, hcode, rfl, -, -⟩ := hp.exists_count
  exact value_of_opening hcode

/-- Once the count is read, what follows is that of as many values. -/
theorem length_bind {α : Type} {length : Read UInt32} {k : UInt32 → Read α}
    {fault : UInt8 → ReadError} (hp : Opens f n p)
    (hlength : length = opened f (fun n => Pure.pure (UInt32.ofNat n)) fault) :
    (length >>= k) (p ++ mid) = k (UInt32.ofNat n) mid := by
  show (length (p ++ mid) >>= fun x => k x.1 x.2) = _
  rw [hlength, opened_of_opens hp]
  rfl

theorem str_settled {data : Bytes} (hp : Opens .str data.length p) :
    Settled (Outline.text data).Legible rest (str (p ++ (data ++ rest))) := by
  have hbytes : strBytes (p ++ (data ++ rest)) = .ok (data, rest) := by
    rw [strBytes_eq, opened_of_opens hp, take_append]
  have hlegible : (Outline.text data).Legible ↔ (Text.ofUtf8? data).isSome := by
    constructor
    · rintro ⟨⟩
      assumption
    · exact .text
  show Settled _ _ (strBytes (p ++ (data ++ rest)) >>= fun x => _)
  rw [hbytes, ok_bind, hlegible]
  cases Text.ofUtf8? data with
  | some s => exact .rendered rfl
  | none => exact .invalidText nofun

/-- A value is rendered if it fits the levels that are left and its texts are
texts, and refused otherwise. -/
theorem value_settled (levels : Nat) (v : Outline) (p rest : Bytes) (h : Encodes v p) :
    Settled (v.Renders levels) rest (value levels (p ++ rest)) := by
  induction levels generalizing v p rest with
  | zero => exact .tooDeep fun h => h.1
  | succ levels ih =>
      have hplain : Outline.plain.Renders (levels + 1) := ⟨nofun, .plain⟩
      cases h with
      | @scalar code data hcode =>
          have hleaves : Leaves (value (levels + 1)) (code :: data ++ rest) rest :=
            (value_scalar_iff (Lead.scalar?_ofByte.mpr hcode)).mpr ⟨data, take_append data rest⟩
          exact .of_leaves hleaves hplain
      | @bin p data hp =>
          rw [List.append_assoc, value_of_opens hp]
          refine .of_leaves (leaves_bind_pure.mpr ⟨data, ?_⟩) hplain
          rw [bin_eq, opened_of_opens hp, take_append]
      | @ext p data tag hp =>
          rw [List.append_assoc, value_of_opens hp]
          refine .of_leaves (leaves_bind_pure.mpr ⟨⟨tag.toInt8, data⟩, ?_⟩) hplain
          rw [extension_eq, opened_of_opens hp, List.cons_append, extensionBody, byte_bind]
          exact bind_eq_ok_iff.mpr ⟨data, rest, take_append data rest, rfl⟩
      | @str p data hp =>
          rw [List.append_assoc, value_of_opens hp]
          exact (str_settled hp).bind_pure.congr Outline.renders_text_iff.symm
      | @array items p q hp hitems =>
          obtain ⟨ps, hps, rfl⟩ := hitems.exists_items
          rw [List.append_assoc, value_of_opens hp, counted, length_bind hp arrayLength_eq,
            UInt32.toNat_ofNat_of_lt' hp.count_lt]
          exact (Settled.times ih hps []).bind_pure.congr Outline.renders_array_iff.symm
      | @map pairs p q hp hpairs =>
          obtain ⟨ps, hps, rfl⟩ := hpairs.exists_pairs
          rw [List.append_assoc, value_of_opens hp, counted, length_bind hp mapLength_eq,
            UInt32.toNat_ofNat_of_lt' hp.count_lt]
          exact (Settled.times (fun _ _ _ h => pair_settled ih h) hps []).bind_pure.congr
            Outline.renders_map_iff.symm

end Whole

/-- `render` and `skip` agree on where values end.  What `skip` refuses,
`render` refuses.  Where `skip` steps over a value, `render` leaves the same
bytes behind, if the value nests at most a hundred levels below its root and
all its texts but the map keys are UTF-8; otherwise it refuses the value for
one of these two reasons. -/
theorem render_agrees (buf : Bytes) :
    ((∃ e, Read.skip buf = .error e) → ∃ e, render buf = .error e) ∧
    ∀ rest, Read.skip buf = .ok ((), rest) →
      (∃ v o, Encodes v o ∧ buf = o ++ rest) ∧
      ∀ v o, Encodes v o → buf = o ++ rest →
        (v.Fits (maxDepth + 1) ∧ v.Legible → ∃ json, render buf = .ok (json, rest)) ∧
        (¬ (v.Fits (maxDepth + 1) ∧ v.Legible) →
          render buf = .error (.tooDeep maxDepth) ∨ render buf = .error .invalidText) := by
  constructor
  · rintro ⟨e, hskip⟩
    cases hrender : render buf with
    | error e => exact ⟨e, rfl⟩
    | ok x =>
        obtain ⟨q, hq, rfl⟩ := value_takes (maxDepth + 1) buf x.2 ⟨x.1, hrender⟩
        rw [skip_eq_ok_iff.mpr ⟨q, isSequence_one_iff.mp hq, rfl⟩] at hskip
        exact nomatch hskip
  · intro rest hskip
    obtain ⟨o, ⟨v, hv⟩, hbuf⟩ := skip_eq_ok_iff.mp hskip
    refine ⟨⟨v, o, hv, hbuf⟩, ?_⟩
    rintro v o hv rfl
    have hsettled := value_settled (maxDepth + 1) v o rest hv
    rw [render]
    generalize value (maxDepth + 1) (o ++ rest) = result at hsettled
    cases hsettled with
    | rendered hgood => exact ⟨fun _ => ⟨_, rfl⟩, fun h => absurd hgood h⟩
    | tooDeep hbad => exact ⟨fun h => absurd h hbad, fun _ => Or.inl rfl⟩
    | invalidText hbad => exact ⟨fun h => absurd h hbad, fun _ => Or.inr rfl⟩

/-- The byte `0xff` is no text: as a map key it is rendered, in an array it is
refused. -/
theorem render_agrees_invalid_text :
    (∃ json, render [0x81, 0xa1, 0xff, 0x01, 0x07] = .ok (json, [0x07])) ∧
      (render [0x91, 0xa1, 0xff, 0x07] = .error (.tooDeep maxDepth) ∨
        render [0x91, 0xa1, 0xff, 0x07] = .error .invalidText) := by
  have htext : Encodes (.text [0xff]) ([0xa1] ++ [0xff]) := .str (.inside (by decide))
  have hplain : Encodes .plain [0x01] := @Encodes.scalar 0x01 [] (by decide)
  constructor
  · have hmap := @Encodes.map [(_, _)] [0x81] _ (.inside (by decide))
      (.cons htext (.cons hplain .nil))
    have hskip := skip_of_isValue ⟨_, hmap⟩ [0x07]
    have hfits : ∀ v ∈ [Outline.text [0xff], .plain], v.Fits maxDepth := by
      simp only [List.forall_mem_cons, List.not_mem_nil, false_implies, implies_true, and_true]
      exact ⟨nofun, nofun⟩
    refine (((render_agrees _).2 _ hskip).2 _ _ hmap rfl).1 ⟨hfits, .map ?_ ?_⟩
    · simp only [List.forall_mem_singleton]
      exact fun h => absurd trivial h
    · simp only [List.forall_mem_singleton]
      exact .plain
  · have harray := @Encodes.array [_] [0x91] _ (.inside (by decide)) (.cons htext .nil)
    have hskip := skip_of_isValue ⟨_, harray⟩ [0x07]
    refine (((render_agrees _).2 _ hskip).2 _ _ harray rfl).2 fun ⟨_, hlegible⟩ => ?_
    cases hlegible with
    | array hitems =>
        cases hitems _ List.mem_cons_self with
        | text h => exact absurd h (by decide +kernel)

end MetaRecord.Document
