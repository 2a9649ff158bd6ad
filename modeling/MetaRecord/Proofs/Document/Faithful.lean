/-
# `MetaRecord.Proofs.Document.Faithful` — what was written is rendered faithfully

A `Message` is a value that the writers can write: nil, booleans, integers of
either family, texts, byte strings, and arrays and maps of such values, the keys
of maps being texts.  `Message.bytes` puts it together from what each writer gives,
and `Message.json` is the document it stands for, without any bytes in between.

The rendering goes by the first byte and not by the writer.  An integer from 0
to 127 has the same single byte in both families, so what the signed writer
wrote is rendered by the unsigned read; `value_integer` is therefore stated for
all encodings of an integer at once.  Values that open with a count are rendered
by their family, and `opens_length` and `opens_count` say that the writers'
headers open it.  The levels are counted down as in the rendering, so the
induction is on them.

Main statement: `render_bytes`.
-/
import MetaRecord.Proofs.Document.Agreement
import MetaRecord.Proofs.Json.Members
import MetaRecord.Proofs.MessagePack.Ranges

namespace MetaRecord

namespace MessagePack

/-! ## Messages -/

/-- A value that can be written. -/
inductive Message where
  | nil
  | bool (b : Bool)
  /-- An integer for the unsigned writer. -/
  | uint (v : UInt64)
  /-- An integer for the signed writer. -/
  | int (v : Int64)
  | str (s : String)
  | bin (data : Bytes)
  | array (items : List Message)
  | map (pairs : List (String × Message))

namespace Message

mutual

def bytes : Message → Bytes
  | nil => Write.nil
  | bool b => Write.bool b
  | uint v => Write.uint v
  | int v => Write.int v
  | str s => Write.str s
  | bin data => Write.bin data
  | array items => Write.arrayLength (UInt32.ofNat items.length) ++ itemBytes items
  | map pairs => Write.mapLength (UInt32.ofNat pairs.length) ++ pairBytes pairs

def itemBytes : List Message → Bytes
  | [] => []
  | item :: rest => item.bytes ++ itemBytes rest

def pairBytes : List (String × Message) → Bytes
  | [] => []
  | (name, value) :: rest => Write.str name ++ value.bytes ++ pairBytes rest

end

mutual

/-- The document that a value stands for: byte strings as Base64, and of the
pairs with one name the last. -/
def json : Message → Json
  | nil => .null
  | bool b => .bool b
  | uint v => .int v.toNat
  | int v => .int v.toInt
  | str s => .str s
  | bin data => .str (Text.Base64.encode data)
  | array items => .arr (itemDocuments items)
  | map pairs => Json.object (memberDocuments pairs)

def itemDocuments : List Message → List Json
  | [] => []
  | item :: rest => item.json :: itemDocuments rest

def memberDocuments : List (String × Message) → List (String × Json)
  | [] => []
  | (name, value) :: rest => (name, value.json) :: memberDocuments rest

end

/-- The value has at most `levels` levels, its own among them, and the lengths
and counts in it are below 2³². -/
def Fits : (levels : Nat) → Message → Prop
  | 0, _ => False
  | _ + 1, str s => (Text.utf8 s).length < 0x100000000
  | _ + 1, bin data => data.length < 0x100000000
  | levels + 1, array items => items.length < 0x100000000 ∧ ∀ item ∈ items, item.Fits levels
  | levels + 1, map pairs => pairs.length < 0x100000000 ∧
      ∀ pair ∈ pairs, (Text.utf8 pair.1).length < 0x100000000 ∧ pair.2.Fits levels
  | _ + 1, _ => True

theorem itemBytes_eq (items : List Message) : itemBytes items = items.flatMap bytes := by
  induction items with
  | nil => rfl
  | cons item items ih => rw [itemBytes, ih, List.flatMap_cons]

theorem pairBytes_eq (pairs : List (String × Message)) :
    pairBytes pairs = pairs.flatMap fun pair => Write.str pair.1 ++ pair.2.bytes := by
  induction pairs with
  | nil => rfl
  | cons pair pairs ih => rw [pairBytes, ih, List.flatMap_cons]

theorem itemDocuments_eq (items : List Message) : itemDocuments items = items.map json := by
  induction items with
  | nil => rfl
  | cons item items ih => rw [itemDocuments, ih, List.map_cons]

theorem memberDocuments_eq (pairs : List (String × Message)) :
    memberDocuments pairs = pairs.map fun pair => (pair.1, pair.2.json) := by
  induction pairs with
  | nil => rfl
  | cons pair pairs ih => rw [memberDocuments, ih, List.map_cons]

end Message

/-! ## Headers that are written -/

section Headers

variable {f : Family} {n : Nat}

theorem opens_length {c₁ c₂ c₄ : UInt8} (h₁ : (c₁, 1) ∈ f.sized) (h₂ : (c₂, 2) ∈ f.sized)
    (h₄ : (c₄, 4) ∈ f.sized) (hn : n < 0x100000000) : Opens f n (Write.length c₁ c₂ c₄ n) := by
  rw [Write.length]
  split
  · next hlt => exact .behind h₁ hlt
  · split
    · next hlt => exact .behind h₂ hlt
    · exact .behind h₄ hn

theorem opens_count {small c₂ c₄ : UInt8} (hs : n < 16 → (small, n) ∈ f.counted)
    (h₂ : (c₂, 2) ∈ f.sized) (h₄ : (c₄, 4) ∈ f.sized) (hn : n < 0x100000000) :
    Opens f n (if n < 16 then [small]
      else if n < 0x10000 then Write.sized c₂ 2 n else Write.sized c₄ 4 n) := by
  split
  · next hlt => exact .inside (hs hlt)
  · split
    · next hlt => exact .behind h₂ hlt
    · exact .behind h₄ hn

/-- A count that stands in the first byte is one of the list. -/
theorem mem_counted {g : Nat → UInt8} {limit : Nat} (h : n < limit) :
    (g n, n) ∈ (List.range limit).map fun k => (g k, k) :=
  List.mem_map.mpr ⟨n, List.mem_range.mpr h, rfl⟩

theorem opens_arrayLength (hn : n < 0x100000000) :
    Opens .array n (Write.arrayLength (UInt32.ofNat n)) := by
  rw [Write.arrayLength, UInt32.toNat_ofNat_of_lt' hn]
  exact opens_count (mem_counted (g := fun k => UInt8.ofNat (0x90 + k))) (by decide) (by decide) hn

theorem opens_mapLength (hn : n < 0x100000000) :
    Opens .map n (Write.mapLength (UInt32.ofNat n)) := by
  rw [Write.mapLength, UInt32.toNat_ofNat_of_lt' hn]
  exact opens_count (mem_counted (g := fun k => UInt8.ofNat (0x80 + k))) (by decide) (by decide) hn

theorem exists_opens_str {s : String} (h : (Text.utf8 s).length < 0x100000000) :
    ∃ p, Opens .str (Text.utf8 s).length p ∧ Write.str s = p ++ Text.utf8 s := by
  refine ⟨_, ?_, rfl⟩
  split
  · next hlt => exact .inside (mem_counted hlt)
  · exact opens_length (by decide) (by decide) (by decide) h

end Headers

end MessagePack

namespace Document

open MessagePack MessagePack.Read

variable {levels : Nat} {v : Int} {n : Nat} {p rest : Bytes}

/-! ## Scalars -/

/-- Every encoding of an integer is rendered as that integer. -/
theorem value_integer (h : EncodesInteger v p) (rest : Bytes) :
    value (levels + 1) (p ++ rest) = .ok (.int v, rest) := by
  have hunsigned {n : Nat} (h : EncodesInteger n p) :
      (uint >>= fun u => pure (Json.int u.toNat)) (p ++ rest) = .ok (.int n, rest) := by
    refine bind_eq_ok_iff.mpr ⟨_, rest, uint_of_encodes h rest, ?_⟩
    rw [UInt64.toNat_ofNat_of_lt' (Int.ofNat_lt.mp h.lt)]
    rfl
  have hsigned (hlow : -0x8000000000000000 ≤ v) (hhigh : v < 0x8000000000000000) :
      (int >>= fun w => pure (Json.int w.toInt)) (p ++ rest) = .ok (.int v, rest) := by
    have hread := int_of_encodes h rest
    rw [signed64_eq, if_pos hhigh] at hread
    refine bind_eq_ok_iff.mpr ⟨_, rest, hread, ?_⟩
    rw [Int64.toInt_ofInt_of_le hlow hhigh]
    rfl
  cases h with
  | @positive code n hcode =>
      show value (levels + 1) (code :: rest) = _
      rw [value, upcoming_bind, hcode]
      exact hunsigned (.positive hcode)
  | @negative code n hcode =>
      have hn := Lead.lt_of_inside (Or.inr hcode)
      show value (levels + 1) (code :: rest) = _
      rw [value, upcoming_bind, hcode]
      exact hsigned (by omega) (by omega)
  | @unsigned code width n hcode hn =>
      show value (levels + 1) (code :: (Bytes.ofNatBE width n ++ rest)) = _
      rw [value, upcoming_bind, hcode]
      exact hunsigned (.unsigned hcode hn)
  | @signed code width v hcode hlow hhigh =>
      have hpow := Lead.pow_le_of_behind (Or.inr hcode)
      show value (levels + 1) (code :: (Bytes.ofNatBE width _ ++ rest)) = _
      rw [value, upcoming_bind, hcode]
      exact hsigned (by omega) (by omega)

/-! ## Texts and byte strings -/

theorem value_str {s : String} (h : (Text.utf8 s).length < 0x100000000) (rest : Bytes) :
    value (levels + 1) (Write.str s ++ rest) = .ok (.str s, rest) := by
  obtain ⟨p, hp, hbytes⟩ := exists_opens_str h
  have hstr : str (p ++ (Text.utf8 s ++ rest)) = .ok (s, rest) := by
    show (strBytes (p ++ (Text.utf8 s ++ rest)) >>= fun x => _) = _
    rw [strBytes_eq, opened_of_opens hp, take_append, ok_bind, Text.ofUtf8?_utf8]
    rfl
  rw [hbytes, List.append_assoc, value_of_opens hp]
  exact bind_eq_ok_iff.mpr ⟨s, rest, hstr, rfl⟩

theorem value_bin {data : Bytes} (h : data.length < 0x100000000) (rest : Bytes) :
    value (levels + 1) (Write.bin data ++ rest) =
      .ok (.str (Text.Base64.encode data), rest) := by
  have hp : Opens .bin data.length (Write.length 0xc4 0xc5 0xc6 data.length) :=
    opens_length (by decide) (by decide) (by decide) h
  have hbin : bin (Write.length 0xc4 0xc5 0xc6 data.length ++ (data ++ rest)) =
      .ok (data, rest) := by
    rw [bin_eq, opened_of_opens hp, take_append]
  rw [Write.bin, List.append_assoc, value_of_opens hp]
  exact bind_eq_ok_iff.mpr ⟨data, rest, hbin, rfl⟩

/-! ## Items and pairs -/

/-- Reads that each give what was written, one after the other, give all of it. -/
theorem times_flatMap {ι α : Type} {r : Read α} {spell : ι → Bytes} {result : ι → α}
    {items : List ι} (h : ∀ i ∈ items, ∀ rest, r (spell i ++ rest) = .ok (result i, rest))
    (done : List α) (rest : Bytes) :
    Read.times r items.length done (items.flatMap spell ++ rest) =
      .ok (done.reverse ++ items.map result, rest) := by
  induction items generalizing done with
  | nil => simp [Read.times]
  | cons i items ih =>
      rw [List.forall_mem_cons] at h
      rw [List.length_cons, times_succ, List.flatMap_cons, List.append_assoc]
      refine bind_eq_ok_iff.mpr ⟨_, _, h.1 _, ?_⟩
      rw [ih h.2, List.reverse_cons, List.append_assoc, List.map_cons]
      rfl

theorem pair_str {r : Read Json} {name : String} {j : Json}
    (hname : (Text.utf8 name).length < 0x100000000) (hr : r (p ++ rest) = .ok (j, rest)) :
    Document.pair r (Write.str name ++ p ++ rest) = .ok ((name, j), rest) := by
  have hkey : key r (Write.str name ++ (p ++ rest)) = .ok (name, p ++ rest) := by
    rw [key, (Spells.mapKey hname).whole]
    simp only [Text.ofUtf8Lossy_utf8]
  rw [List.append_assoc]
  exact bind_eq_ok_iff.mpr ⟨_, _, hkey, bind_eq_ok_iff.mpr ⟨_, _, hr, rfl⟩⟩

/-! ## Whole messages -/

theorem value_bytes (levels : Nat) (m : Message) (rest : Bytes) (h : m.Fits levels) :
    value levels (m.bytes ++ rest) = .ok (m.json, rest) := by
  induction levels generalizing m rest with
  | zero => exact absurd h (by simp [Message.Fits])
  | succ levels ih =>
      cases m with
      | nil => rfl
      | bool b => cases b <;> rfl
      | uint v => exact value_integer (.of_spells (.integer_uint .uint v)) rest
      | int v => exact value_integer (.of_spells (.integer_int .int v)) rest
      | str s => exact value_str h rest
      | bin data => exact value_bin h rest
      | array items =>
          obtain ⟨hcount, hitems⟩ := h
          have hp := opens_arrayLength hcount
          have htimes := times_flatMap
            (fun item hitem rest => ih item rest (hitems item hitem)) [] rest
          rw [Message.bytes, Message.itemBytes_eq, Message.json, Message.itemDocuments_eq, List.append_assoc,
            value_of_opens hp, counted, length_bind hp arrayLength_eq,
            UInt32.toNat_ofNat_of_lt' hcount]
          exact bind_eq_ok_iff.mpr ⟨_, rest, htimes, rfl⟩
      | map pairs =>
          obtain ⟨hcount, hpairs⟩ := h
          have hp := opens_mapLength hcount
          have htimes := times_flatMap (fun pair hpair rest =>
            pair_str (hpairs pair hpair).1 (ih pair.2 rest (hpairs pair hpair).2)) [] rest
          rw [Message.bytes, Message.pairBytes_eq, Message.json, Message.memberDocuments_eq,
            List.append_assoc, value_of_opens hp, counted, length_bind hp mapLength_eq,
            UInt32.toNat_ofNat_of_lt' hcount]
          exact bind_eq_ok_iff.mpr ⟨_, rest, htimes, rfl⟩

/-- The object of a map has each name once, with the value of the last pair that
has the name. -/
theorem json_map (pairs : List (String × Message)) :
    ∃ members, (Message.map pairs).json = .obj members ∧ Json.Members.Sorted members ∧
      ∀ name, Json.Members.find? name members =
        (pairs.reverse.find? fun pair => pair.1 = name).map (·.2.json) := by
  refine ⟨Json.Members.ofList (Message.memberDocuments pairs), ?_,
    Json.Members.sorted_ofList _, fun name => ?_⟩
  · rw [Message.json, Json.object]
  · rw [Json.Members.find?_ofList, Message.memberDocuments_eq, ← List.map_reverse, List.find?_map,
      Option.map_map]
    rfl

/-- A value of at most a hundred levels below its root that was put together
from what the writers gave is rendered as the document it stands for, and the
bytes behind it are left.  In its objects, of the pairs with one name the last
counts. -/
theorem render_bytes (m : Message) (rest : Bytes) (h : m.Fits (maxDepth + 1)) :
    render (m.bytes ++ rest) = .ok (m.json, rest) ∧
      ∀ pairs, ∃ members, (Message.map pairs).json = .obj members ∧ Json.Members.Sorted members ∧
        ∀ name, Json.Members.find? name members =
          (pairs.reverse.find? fun pair => pair.1 = name).map (·.2.json) :=
  ⟨value_bytes (maxDepth + 1) m rest h, json_map⟩

/-- A map in which a name is given twice, with an integer of each family, a byte
string and an empty text below it. -/
def sampleMessage : Message :=
  .map [("a", .uint 200), ("b", .array [.bin [0xff], .nil, .str ""]), ("a", .int (-1))]

theorem sampleMessage_fits : sampleMessage.Fits (maxDepth + 1) := by
  simp only [sampleMessage, maxDepth, Message.Fits, List.forall_mem_cons, List.not_mem_nil,
    false_implies, implies_true, and_true, true_and]
  decide

theorem render_bytes_sampleMessage :
    render (sampleMessage.bytes ++ [7]) = .ok (sampleMessage.json, [7]) ∧
      ∃ members, sampleMessage.json = .obj members ∧
        Json.Members.find? "a" members = some (.int (-1)) := by
  obtain ⟨hrender, hobjects⟩ := render_bytes sampleMessage [7] sampleMessage_fits
  obtain ⟨members, hjson, -, hfind⟩ := hobjects _
  exact ⟨hrender, members, hjson, hfind "a"⟩

end Document

end MetaRecord
