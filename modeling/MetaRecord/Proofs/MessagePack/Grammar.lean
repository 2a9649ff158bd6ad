/-
# `MetaRecord.Proofs.MessagePack.Grammar` — what bytes a value can have

The format lists first bytes.  A scalar has a first byte and a number of bytes
that depends on it alone.  The other values open with a count, which stands in
the first byte or behind it: of bytes in texts, byte strings and extensions, of
values in arrays, of pairs in maps.  `scalarCodes`, `Family.counted` and
`Family.sized` are these lists, and `Encodes` is the grammar over them.  All
are stated without the reads and without the table that these look at.

An `Outline` is what is left of a value when only its nesting and its texts
count.  It is what a limit on levels or a demand on texts can speak of.

The reads that look for a count are all one read, `Read.opened`, with its
family and what it does with the count.

Main statements: `Lead.scalar?_ofByte`, `Lead.opening?_inside` and
`Lead.opening?_behind`, the table of first bytes is these lists; and
`Read.opened_eq_ok_iff`, one lemma for all reads of counted values.
-/
import Mathlib.Data.List.Basic
import MetaRecord.Proofs.MessagePack.Encoding

namespace MetaRecord.MessagePack

/-! ## First bytes -/

/-- The first bytes of scalars, each with the number of bytes behind it: small
integers, nil and the booleans, floating-point numbers, unsigned and signed
integers. -/
def scalarCodes : List (UInt8 × Nat) :=
  (List.range 0x80).map (fun n => (UInt8.ofNat n, 0)) ++
  (List.range 0x20).map (fun n => (UInt8.ofNat (0xe0 + n), 0)) ++
  [(0xc0, 0), (0xc2, 0), (0xc3, 0), (0xca, 4), (0xcb, 8),
    (0xcc, 1), (0xcd, 2), (0xce, 4), (0xcf, 8), (0xd0, 1), (0xd1, 2), (0xd2, 4), (0xd3, 8)]

/-- The values that open with a count. -/
inductive Family where
  | str | bin | ext | array | map
deriving DecidableEq

namespace Family

/-- The first bytes that announce a count themselves, with the count. -/
def counted : Family → List (UInt8 × Nat)
  | str => (List.range 32).map fun n => (UInt8.ofNat (0xa0 + n), n)
  | bin => []
  | ext => [(0xd4, 1), (0xd5, 2), (0xd6, 4), (0xd7, 8), (0xd8, 16)]
  | array => (List.range 16).map fun n => (UInt8.ofNat (0x90 + n), n)
  | map => (List.range 16).map fun n => (UInt8.ofNat (0x80 + n), n)

/-- The first bytes with a count behind them, with the width of the count. -/
def sized : Family → List (UInt8 × Nat)
  | str => [(0xd9, 1), (0xda, 2), (0xdb, 4)]
  | bin => [(0xc4, 1), (0xc5, 2), (0xc6, 4)]
  | ext => [(0xc7, 1), (0xc8, 2), (0xc9, 4)]
  | array => [(0xdc, 2), (0xdd, 4)]
  | map => [(0xde, 2), (0xdf, 4)]

end Family

/-- `p` opens a value of a family with the count `n`. -/
inductive Opens (f : Family) (n : Nat) : Bytes → Prop
  | inside {code : UInt8} : (code, n) ∈ f.counted → Opens f n [code]
  | behind {code : UInt8} {width : Nat} : (code, width) ∈ f.sized → n < Nat.pow 256 width →
      Opens f n (Write.sized code width n)

/-! ## Values -/

/-- A value as far as its nesting and its texts go. -/
inductive Outline where
  /-- No value is in it, and it is no text. -/
  | plain
  | text (data : Bytes)
  | array (items : List Outline)
  | map (pairs : List (Outline × Outline))

/-- Keys and values, one after the other. -/
def Outline.members (pairs : List (Outline × Outline)) : List Outline :=
  pairs.flatMap fun pair => [pair.1, pair.2]

mutual

/-- `p` encodes a value of the given outline. -/
inductive Encodes : Outline → Bytes → Prop
  | scalar {code : UInt8} {data : Bytes} : (code, data.length) ∈ scalarCodes →
      Encodes .plain (code :: data)
  | bin {p data : Bytes} : Opens .bin data.length p → Encodes .plain (p ++ data)
  | ext {p data : Bytes} {tag : UInt8} : Opens .ext data.length p →
      Encodes .plain (p ++ tag :: data)
  | str {p data : Bytes} : Opens .str data.length p → Encodes (.text data) (p ++ data)
  | array {items : List Outline} {p q : Bytes} : Opens .array items.length p →
      EncodesAll items q → Encodes (.array items) (p ++ q)
  | map {pairs : List (Outline × Outline)} {p q : Bytes} : Opens .map pairs.length p →
      EncodesAll (Outline.members pairs) q → Encodes (.map pairs) (p ++ q)

/-- The bytes encode values of the given outlines, one after the other. -/
inductive EncodesAll : List Outline → Bytes → Prop
  | nil : EncodesAll [] []
  | cons {v : Outline} {vs : List Outline} {p q : Bytes} : Encodes v p → EncodesAll vs q →
      EncodesAll (v :: vs) (p ++ q)

end

/-- The bytes are those of one value. -/
def IsValue (o : Bytes) : Prop := ∃ v, Encodes v o

/-- The bytes are those of `n` values, one after the other. -/
def IsSequence (n : Nat) (q : Bytes) : Prop := ∃ vs, EncodesAll vs q ∧ vs.length = n

/-! ## First bytes and what they announce -/

/-- Where a count stands: in the first byte, or in `width` bytes behind it. -/
inductive Count where
  | inside (n : Nat)
  | behind (width : Nat)
deriving DecidableEq

namespace Count

/-- The number of bytes up to the end of the count. -/
def size : Count → Nat
  | inside _ => 1
  | behind width => 1 + width

/-- The count itself, read behind the first byte. -/
def read : Count → Read Nat
  | inside n => pure n
  | behind width => Read.number width

end Count

namespace Lead

/-- The number of bytes that follow the first one of a scalar. -/
def scalar? : Lead → Option Nat
  | .positive _ | .negative _ | .nil | .bool _ => some 0
  | .float width | .uint width | .int width => some width
  | _ => none

/-- The family of a value that opens with a count, and where the count stands. -/
def opening? : Lead → Option (Family × Count)
  | .str n => some (.str, .inside n)
  | .strSized width => some (.str, .behind width)
  | .binSized width => some (.bin, .behind width)
  | .ext n => some (.ext, .inside n)
  | .extSized width => some (.ext, .behind width)
  | .array n => some (.array, .inside n)
  | .arraySized width => some (.array, .behind width)
  | .map n => some (.map, .inside n)
  | .mapSized width => some (.map, .behind width)
  | _ => none

/-- The lists of the format say of the first byte `b` what the lead does. -/
def isListed (b : UInt8) (l : Lead) : Bool :=
  (l.scalar?.all fun width => (b, width) ∈ scalarCodes) &&
  match l.opening? with
  | some (f, .inside n) => (b, n) ∈ f.counted
  | some (f, .behind width) => (b, width) ∈ f.sized
  | none => true

theorem isListed_ofByte (b : UInt8) : (ofByte b).isListed b = true := by
  have h : ∀ n : Fin 256, (ofByte (UInt8.ofNat n)).isListed (UInt8.ofNat n) = true := by
    decide +kernel
  simpa using h ⟨b.toNat, b.toNat_lt⟩

variable {b : UInt8} {n width : Nat} {f : Family}

theorem scalar?_ofByte : (ofByte b).scalar? = some width ↔ (b, width) ∈ scalarCodes := by
  constructor
  · intro h
    have hlisted := isListed_ofByte b
    simp only [isListed, h, Bool.and_eq_true, Option.all_some, decide_eq_true_eq] at hlisted
    exact hlisted.1
  · intro h
    have hall : ∀ x ∈ scalarCodes, (ofByte x.1).scalar? = some x.2 := by decide +kernel
    exact hall _ h

theorem opening?_inside : (ofByte b).opening? = some (f, .inside n) ↔ (b, n) ∈ f.counted := by
  constructor
  · intro h
    have hlisted := isListed_ofByte b
    simp only [isListed, h, Bool.and_eq_true, decide_eq_true_eq] at hlisted
    exact hlisted.2
  · intro h
    have hall : ∀ x ∈ f.counted, (ofByte x.1).opening? = some (f, .inside x.2) := by
      cases f <;> decide +kernel
    exact hall _ h

theorem opening?_behind :
    (ofByte b).opening? = some (f, .behind width) ↔ (b, width) ∈ f.sized := by
  constructor
  · intro h
    have hlisted := isListed_ofByte b
    simp only [isListed, h, Bool.and_eq_true, decide_eq_true_eq] at hlisted
    exact hlisted.2
  · intro h
    have hall : ∀ x ∈ f.sized, (ofByte x.1).opening? = some (f, .behind x.2) := by
      cases f <;> decide +kernel
    exact hall _ h

theorem scalar?_of_opening {l : Lead} {x : Family × Count} (h : l.opening? = some x) :
    l.scalar? = none := by
  cases l <;> first | rfl | exact nomatch h

theorem opening?_ne_of_scalar {l : Lead} {x : Family × Count} (h : l.scalar? = some width) :
    l.opening? ≠ some x := fun hx =>
  nomatch (scalar?_of_opening hx).symm.trans h

theorem opening?_ne_of_family {l : Lead} {g : Family} {count count' : Count}
    (h : l.opening? = some (f, count)) (hne : f ≠ g) : l.opening? ≠ some (g, count') := fun hg =>
  hne (congrArg Prod.fst (Option.some.inj (h.symm.trans hg)))

/-- A first byte belongs to a scalar or to a family, unless no value starts
with it. -/
theorem cases (l : Lead) :
    l = .unused ∨ (∃ width, l.scalar? = some width) ∨ ∃ f count, l.opening? = some (f, count) := by
  cases l with
  | unused => exact Or.inl rfl
  | positive | negative | nil | bool | float | uint | int => exact Or.inr (Or.inl ⟨_, rfl⟩)
  | str | strSized | binSized | ext | extSized | array | arraySized | map | mapSized =>
      exact Or.inr (Or.inr ⟨_, _, rfl⟩)

end Lead

/-- The count that opens a value is read behind its first byte. -/
theorem Opens.exists_count {f : Family} {n : Nat} {p : Bytes} (h : Opens f n p) :
    ∃ code count q, (Lead.ofByte code).opening? = some (f, count) ∧ p = code :: q ∧
      count.size = p.length ∧ ∀ mid, count.read (q ++ mid) = .ok (n, mid) := by
  cases h with
  | @inside code hcode =>
      exact ⟨code, _, [], Lead.opening?_inside.mpr hcode, rfl, rfl, fun _ => rfl⟩
  | @behind code width hcode hlt =>
      refine ⟨code, _, _, Lead.opening?_behind.mpr hcode, rfl, ?_, (Spells.number hlt).whole⟩
      simp [Count.size, Write.sized, Nat.add_comm]

/-- A count that is read opens a value. -/
theorem Opens.of_count {f : Family} {count : Count} {code : UInt8} {n : Nat} {mid rest : Bytes}
    (hcode : (Lead.ofByte code).opening? = some (f, count))
    (hread : count.read mid = .ok (n, rest)) :
    ∃ p, Opens f n p ∧ count.size = p.length ∧ code :: mid = p ++ rest := by
  cases count with
  | inside m =>
      obtain ⟨rfl, rfl⟩ := Read.pure_eq_ok_iff.mp hread
      exact ⟨[code], .inside (Lead.opening?_inside.mp hcode), rfl, rfl⟩
  | behind width =>
      obtain ⟨hlt, rfl⟩ := Read.exists_ofNatBE_of_number hread
      refine ⟨_, .behind (Lead.opening?_behind.mp hcode) hlt, ?_, rfl⟩
      simp [Count.size, Write.sized, Nat.add_comm]

/-- A count has at most four bytes. -/
theorem Opens.count_lt {f : Family} {n : Nat} {p : Bytes} (h : Opens f n p) :
    n < 0x100000000 := by
  cases h with
  | inside hcode =>
      have hall : ∀ x ∈ f.counted, x.2 < 0x100000000 := by cases f <;> decide +kernel
      exact hall _ hcode
  | behind hcode hlt =>
      have hall : ∀ x ∈ f.sized, x.2 ≤ 4 := by cases f <;> decide +kernel
      exact Nat.lt_of_lt_of_le hlt (Nat.pow_le_pow_right (by decide) (hall _ hcode))

namespace Read

/-! ## Reads of counted values -/

section Opened

variable {α : Type} {f : Family} {k : Nat → Read α} {fault : UInt8 → ReadError}

/-- What follows the first byte `b` where a value of a family is to be read. -/
def openedBy (f : Family) (k : Nat → Read α) (fault : UInt8 → ReadError) (b : UInt8) : Read α :=
  match (Lead.ofByte b).opening? with
  | some (g, count) => if g = f then count.read >>= k else throw (fault b)
  | none => throw (fault b)

/-- Read the count that opens a value of a family and go on with it. -/
def opened (f : Family) (k : Nat → Read α) (fault : UInt8 → ReadError) : Read α :=
  byte >>= openedBy f k fault

theorem strBytes_eq : strBytes = opened .str take (.wrongKind .str) := by
  refine congrArg (byte >>= ·) (funext fun b => ?_)
  rw [openedBy]
  cases Lead.ofByte b <;> rfl

theorem bin_eq : bin = opened .bin take (.wrongKind .bin) := by
  refine congrArg (byte >>= ·) (funext fun b => ?_)
  rw [openedBy]
  cases Lead.ofByte b <;> rfl

theorem extension_eq : extension = opened .ext extensionBody (.wrongKind .ext) := by
  refine congrArg (byte >>= ·) (funext fun b => ?_)
  rw [openedBy]
  cases Lead.ofByte b <;> rfl

theorem arrayLength_eq :
    arrayLength = opened .array (fun n => pure (UInt32.ofNat n)) (.wrongKind .array) := by
  refine congrArg (byte >>= ·) (funext fun b => ?_)
  rw [openedBy]
  cases Lead.ofByte b <;> rfl

theorem mapLength_eq :
    mapLength = opened .map (fun n => pure (UInt32.ofNat n)) (.wrongKind .map) := by
  refine congrArg (byte >>= ·) (funext fun b => ?_)
  rw [openedBy]
  cases Lead.ofByte b <;> rfl

theorem openedBy_of_opening {b : UInt8} {count : Count}
    (h : (Lead.ofByte b).opening? = some (f, count)) :
    openedBy f k fault b = count.read >>= k := by
  simp only [openedBy, h, if_true]

theorem openedBy_of_no_opening {b : UInt8}
    (h : ∀ count, (Lead.ofByte b).opening? ≠ some (f, count)) :
    openedBy f k fault b = throw (fault b) := by
  rw [openedBy]
  split
  · next g count hcode =>
      refine if_neg ?_
      rintro rfl
      exact h count hcode
  · rfl

theorem opened_of_opens {n : Nat} {p : Bytes} (h : Opens f n p) (mid : Bytes) :
    opened f k fault (p ++ mid) = k n mid := by
  obtain ⟨code, count, q, hcode, rfl, -, hread⟩ := h.exists_count
  show openedBy f k fault code (q ++ mid) = _
  rw [openedBy_of_opening hcode]
  show (count.read (q ++ mid) >>= fun x => k x.1 x.2) = _
  rw [hread, ok_bind]

theorem opened_eq_ok_iff {buf rest : Bytes} {a : α} :
    opened f k fault buf = .ok (a, rest) ↔
      ∃ n p mid, Opens f n p ∧ buf = p ++ mid ∧ k n mid = .ok (a, rest) := by
  constructor
  · intro hopened
    obtain ⟨b, mid, hbyte, h⟩ := bind_eq_ok_iff.mp hopened
    obtain rfl := byte_eq_ok_iff.mp hbyte
    by_cases hcode : ∃ count, (Lead.ofByte b).opening? = some (f, count)
    · obtain ⟨count, hcode⟩ := hcode
      rw [openedBy_of_opening hcode] at h
      obtain ⟨n, mid', hread, hk⟩ := bind_eq_ok_iff.mp h
      obtain ⟨p, hp, -, hbuf⟩ := Opens.of_count hcode hread
      exact ⟨n, p, mid', hp, hbuf, hk⟩
    · rw [openedBy_of_no_opening fun count h => hcode ⟨count, h⟩] at h
      exact absurd h throw_ne_ok
  · rintro ⟨n, p, mid, hp, rfl, hk⟩
    rw [opened_of_opens hp, hk]

end Opened

end Read

end MetaRecord.MessagePack
