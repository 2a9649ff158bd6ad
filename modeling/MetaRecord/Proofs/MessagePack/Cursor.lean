/-
# `MetaRecord.Proofs.MessagePack.Cursor` — reads that move a cursor

A `Read` is handed bytes and hands back the value and the bytes behind it; if
it fails, its caller still has the bytes from before.  A cursor is used
otherwise.  There is one of it, every step of a read moves it, and after a
failure it stands wherever that step left it.

Here each read of one value is written for a cursor, with its steps and in
terms of the same reads as before.  Most of them work on a copy of the cursor,
which takes its place when they are done (`onCopy`); a key and the bytes of a
value leave that to the read that they end in, and an unsigned integer goes
back to its first byte to be read as a signed one.  Whatever the way, the
cursor is where it was when the read fails.

Main statements: `Follows.bind`, by which a read in place gives what the `Read`
of the same shape gives, `Restores.onCopy`, and for each read that it restores
the cursor.
-/
import MetaRecord.Proofs.MessagePack.Skip

namespace MetaRecord.MessagePack

/-- A signed integer is announced. -/
def Lead.IsSigned (lead : Lead) : Prop :=
  (∃ n, lead = .negative n) ∨ ∃ width, lead = .int width

namespace Read

/-! ## Reads in the order of their steps -/

theorem bind_congr {α β : Type} {r : Read α} {f g : α → Read β} {buf : Bytes}
    (h : ∀ a rest, r buf = .ok (a, rest) → f a rest = g a rest) :
    (r >>= f) buf = (r >>= g) buf := by
  show (r buf >>= fun x => f x.1 x.2) = (r buf >>= fun x => g x.1 x.2)
  cases hr : r buf with
  | error e => rfl
  | ok x => exact h x.1 x.2 hr

/-- What is made of an integer that fits 64 signed bits and must not be negative. -/
def unsigned (v : Int64) : Read UInt64 :=
  if v < 0 then throw (.outOfRange .unsigned64) else return v.toUInt64

theorem unsigned_ofInt {v : Int} (hlow : -0x8000000000000000 ≤ v)
    (hhigh : v < 0x8000000000000000) : unsigned (Int64.ofInt v) = natural v := by
  have hv : (Int64.ofInt v).toInt = v := Int64.toInt_ofInt_of_le hlow hhigh
  cases v with
  | negSucc n =>
      refine if_pos (Int64.lt_iff_toInt_lt.mpr ?_)
      rw [hv]
      exact Int.negSucc_lt_zero n
  | ofNat n =>
      refine (if_neg fun hlt => ?_).trans ?_
      · rw [Int64.lt_iff_toInt_lt, hv] at hlt
        exact absurd hlt (Int.not_lt.mpr (Int.natCast_nonneg n))
      · show pure (Int64.ofInt n).toUInt64 = _
        rw [Int64.ofInt_eq_ofNat, Int64.toUInt64_ofNat']
        rfl

/-- What a signed marker announces has at most 64 bits. -/
theorem integer_bounds {kind : Kind} {b : UInt8} {mid rest : Bytes} {v : Int}
    (hb : (Lead.ofByte b).IsSigned) (h : integer kind b mid = .ok (v, rest)) :
    -0x8000000000000000 ≤ v ∧ v < 0x8000000000000000 := by
  rcases hb with ⟨n, hb⟩ | ⟨width, hb⟩
  · rw [integer, hb] at h
    have hn := Lead.lt_of_inside (Or.inr hb)
    obtain ⟨rfl, -⟩ := pure_eq_ok_iff.mp h
    omega
  · rw [integer, hb] at h
    have hpow := Lead.pow_le_of_behind (Or.inr hb)
    obtain ⟨n, mid', hn, h⟩ := bind_eq_ok_iff.mp h
    obtain ⟨rfl, -⟩ := pure_eq_ok_iff.mp h
    obtain ⟨hlow, hhigh, -⟩ := complement_signed (exists_ofNatBE_of_number hn).1
    omega

theorem uint_cons (b : UInt8) (mid : Bytes) :
    uint (b :: mid) = (integer .uint b >>= natural) mid := by
  rw [uint, byte_bind]
  refine bind_congr fun v _ _ => ?_
  cases v <;> rfl

theorem uint_eq_int {b : UInt8} (mid : Bytes) (hb : (Lead.ofByte b).IsSigned) :
    uint (b :: mid) = (int >>= unsigned) (b :: mid) := by
  have hkind : integer .uint b = integer .int b := by
    rcases hb with ⟨n, hb⟩ | ⟨width, hb⟩ <;> rw [integer, integer, hb]
  rw [uint_cons, int, bind_assoc, byte_bind, hkind, bind_assoc]
  refine bind_congr fun v rest hv => ?_
  obtain ⟨hlow, hhigh⟩ := integer_bounds hb hv
  rw [if_pos hhigh, pure_bind, unsigned_ofInt hlow hhigh]

/-- What follows the first byte `b` where an unsigned integer is to be read, if
one with a signed marker is read again from `start`. -/
def uintBy (start : Bytes) (b : UInt8) : Read UInt64 :=
  match Lead.ofByte b with
  | .positive n => return UInt64.ofNat n
  | .uint width => return UInt64.ofNat (← number width)
  | .int _ | .negative _ => do
    set start
    unsigned (← int)
  | _ => throw (.wrongKind .uint b)

theorem uint_eq : uint = get >>= fun start => byte >>= uintBy start := by
  funext buf
  cases buf with
  | nil => rfl
  | cons b mid =>
      show _ = uintBy (b :: mid) b mid
      cases hb : Lead.ofByte b <;> rw [uintBy, hb]
      case negative n => exact uint_eq_int mid (Or.inl ⟨n, hb⟩)
      case int width => exact uint_eq_int mid (Or.inr ⟨width, hb⟩)
      case uint width =>
        rw [uint_cons, integer, hb]
        dsimp only
        rw [bind_assoc]
        rfl
      all_goals
        rw [uint_cons, integer, hb]
        rfl

/-- The first byte of a key is looked at and stays. -/
theorem mapKey_eq : mapKey = (do
    match Lead.ofByte (← upcoming) with
    | .binSized _ => bin
    | _ => strBytes) := by
  funext buf
  cases buf with
  | nil => rfl
  | cons b buf =>
      show _ = (match Lead.ofByte b with
        | .binSized _ => bin
        | _ => strBytes) (b :: buf)
      rw [mapKey, peek, ok_bind]
      cases Lead.ofByte b <;> rfl

end Read

/-- A read in place: what it gives, and where the cursor stands then, after a
failure as well. -/
abbrev Cursor (α : Type) := ExceptT ReadError (StateM Bytes) α

namespace Cursor

/-! ## Steps -/

def byte : Cursor UInt8 := fun buf =>
  match buf with
  | [] => (.error (.short 1 0), [])
  | b :: rest => (.ok b, rest)

def peek : Cursor UInt8 := fun buf => (Read.peek buf, buf)

def take (n : Nat) : Cursor Bytes := fun buf =>
  if n ≤ buf.length then (.ok (buf.take n), buf.drop n) else (.error (.short n buf.length), buf)

def number (width : Nat) : Cursor Nat := return (← take width).toNatBE

/-- A count, behind the first byte. -/
def count : Count → Cursor Nat
  | .inside n => return n
  | .behind width => number width

/-- Read on a copy of the cursor, which takes the cursor's place if that
succeeds. -/
def onCopy {α : Type} (x : Cursor α) : Cursor α := fun buf =>
  match x buf with
  | (.ok a, rest) => (.ok a, rest)
  | (.error e, _) => (.error e, buf)

/-! ## Values that open with a count -/

def opened {α : Type} (family : Family) (k : Nat → Cursor α) (fault : UInt8 → ReadError) :
    Cursor α :=
  onCopy do
    let b ← byte
    match (Lead.ofByte b).opening? with
    | some (g, c) => if g = family then count c >>= k else throw (fault b)
    | none => throw (fault b)

def bin : Cursor Bytes := opened .bin take (.wrongKind .bin)

def strBytes : Cursor Bytes := opened .str take (.wrongKind .str)

def arrayLength : Cursor UInt32 :=
  opened .array (fun n => return UInt32.ofNat n) (.wrongKind .array)

def mapLength : Cursor UInt32 :=
  opened .map (fun n => return UInt32.ofNat n) (.wrongKind .map)

def extensionBody (n : Nat) : Cursor Read.Extension := do
  let tag ← byte
  return ⟨tag.toInt8, ← take n⟩

def extension : Cursor Read.Extension := opened .ext extensionBody (.wrongKind .ext)

def fixedBin (size : Nat) : Cursor (FixedBytes size) := onCopy do
  let bytes ← bin
  match FixedBytes.ofBytes? size bytes with
  | some fixed => return fixed
  | none => throw (.wrongLength size bytes.length)

def str : Cursor String := onCopy do
  match Text.ofUtf8? (← strBytes) with
  | some s => return s
  | none => throw .invalidText

def mapKey : Cursor Bytes := do
  match Lead.ofByte (← peek) with
  | .binSized _ => bin
  | _ => strBytes

/-! ## Scalars -/

def nil : Cursor Unit := onCopy do
  let b ← byte
  match Lead.ofByte b with
  | .nil => return ()
  | _ => throw (.wrongKind .nil b)

def bool : Cursor Bool := onCopy do
  let b ← byte
  match Lead.ofByte b with
  | .bool v => return v
  | _ => throw (.wrongKind .bool b)

def float : Cursor Decimal.Binary64 := onCopy do
  let b ← byte
  match Lead.ofByte b with
  | .float 4 => return .ofBinary32 (UInt32.ofNat (← number 4))
  | .float width => return ⟨UInt64.ofNat (← number width)⟩
  | _ => throw (.wrongKind .float b)

def integer (kind : Kind) (b : UInt8) : Cursor Int :=
  match Lead.ofByte b with
  | .positive n => return n
  | .negative n => return (n : Int) - 256
  | .uint width => return (← number width : Nat)
  | .int width => return Read.signed width (← number width)
  | _ => throw (.wrongKind kind b)

def int : Cursor Int64 := onCopy do
  let b ← byte
  let v ← integer .int b
  if v < 0x8000000000000000 then return Int64.ofInt v else throw (.outOfRange .signed64)

/-- An integer with a signed marker is read again from its first byte, as a
signed one. -/
def uint : Cursor UInt64 := onCopy do
  let start ← get
  let b ← byte
  match Lead.ofByte b with
  | .positive n => return UInt64.ofNat n
  | .uint width => return UInt64.ofNat (← number width)
  | .int _ | .negative _ =>
    set start
    let v ← int
    if v < 0 then throw (.outOfRange .unsigned64) else return v.toUInt64
  | _ => throw (.wrongKind .uint b)

def uint32 : Cursor UInt32 := onCopy do
  let v ← uint
  if v.toNat < 0x100000000 then return v.toUInt32 else throw (.outOfRange .unsigned32)

def uint8 : Cursor UInt8 := onCopy do
  let v ← uint
  if v.toNat < 0x100 then return v.toUInt8 else throw (.outOfRange .unsigned8)

/-- An optional 32-bit unsigned integer: why it could not be read is dropped. -/
def uint32? : StateM Bytes (Option UInt32) := return (← uint32.run).toOption

/-! ## The head of a value -/

def strideOver (header n : Nat) : Cursor Stride := do
  let _ ← take n
  return ⟨0, header + n⟩

def head : Cursor Stride := do
  let b ← byte
  match Lead.ofByte b with
  | .positive _ | .negative _ | .nil | .bool _ => return ⟨0, 1⟩
  | .map n => return ⟨2 * n, 1⟩
  | .array n => return ⟨n, 1⟩
  | .str n => strideOver 1 n
  | .binSized width | .strSized width => strideOver (1 + width) (← number width)
  | .ext n => strideOver 1 (n + 1)
  | .extSized width => strideOver (1 + width) ((← number width) + 1)
  | .uint width | .int width | .float width => strideOver 1 width
  | .arraySized width => return ⟨← number width, 1 + width⟩
  | .mapSized width => return ⟨2 * (← number width), 1 + width⟩
  | .unused => throw (.wrongKind .object b)

/-! ## Cursors and bytes that are handed over -/

/-- The cursor's read gives what the other one does.  Where the cursor stands
after a failure is left open. -/
structure Follows {α : Type} (x : Cursor α) (r : Read α) : Prop where
  ok {buf rest : Bytes} {a : α} : r buf = .ok (a, rest) → x buf = (.ok a, rest)
  error {buf : Bytes} {e : ReadError} : r buf = .error e → ∃ rest, x buf = (.error e, rest)

/-- The same, and after a failure the cursor is where it was. -/
structure Restores {α : Type} (x : Cursor α) (r : Read α) : Prop where
  ok {buf rest : Bytes} {a : α} : r buf = .ok (a, rest) → x buf = (.ok a, rest)
  error {buf : Bytes} {e : ReadError} : r buf = .error e → x buf = (.error e, buf)

section Follows

variable {α β : Type} {x : Cursor α} {r : Read α} {f : α → Cursor β} {g : α → Read β}

theorem Restores.follows (h : Restores x r) : Follows x r where
  ok := h.ok
  error he := ⟨_, h.error he⟩

theorem Restores.onCopy (h : Follows x r) : Restores (onCopy x) r where
  ok hr := by rw [Cursor.onCopy, h.ok hr]
  error he := by
    obtain ⟨rest, hx⟩ := h.error he
    rw [Cursor.onCopy, hx]

/-- A look ahead moves nothing, so it need not be undone. -/
theorem Restores.peek_bind {f : UInt8 → Cursor β} {g : UInt8 → Read β}
    (hf : ∀ b, Restores (f b) (g b)) : Restores (peek >>= f) (Read.upcoming >>= g) where
  ok {buf rest b} hr := by
    cases buf with
    | nil => exact nomatch hr
    | cons c buf => exact (hf c).ok hr
  error {buf e} he := by
    cases buf with
    | nil =>
        rw [← Except.error.inj he]
        rfl
    | cons c buf => exact (hf c).error he

namespace Follows

theorem ok_iff (h : Follows x r) {buf rest : Bytes} {a : α} :
    x buf = (.ok a, rest) ↔ r buf = .ok (a, rest) := by
  refine ⟨fun hx => ?_, h.ok⟩
  cases hr : r buf with
  | ok p =>
      rw [h.ok hr] at hx
      obtain ⟨⟨⟩, rfl⟩ := Prod.mk.inj hx
      rfl
  | error e =>
      obtain ⟨rest', hx'⟩ := h.error hr
      exact nomatch (Prod.mk.inj (hx.symm.trans hx')).1

theorem bind (h : Follows x r) (hf : ∀ a, Follows (f a) (g a)) :
    Follows (x >>= f) (r >>= g) where
  ok hr := by
    obtain ⟨a, mid, ha, hb⟩ := Read.bind_eq_ok_iff.mp hr
    exact (run_bind_of_ok (h.ok ha)).trans ((hf a).ok hb)
  error he := by
    rcases bind_eq_error.mp he with he | ⟨⟨a, mid⟩, ha, he⟩
    · obtain ⟨rest, hx⟩ := h.error he
      exact ⟨rest, run_bind_eq_error.mpr (Or.inl hx)⟩
    · obtain ⟨rest, hx⟩ := (hf a).error he
      exact ⟨rest, (run_bind_of_ok (h.ok ha)).trans hx⟩

theorem pure (a : α) : Follows (Pure.pure a) (Pure.pure a) where
  ok hr := by
    obtain ⟨rfl, rfl⟩ := Read.pure_eq_ok_iff.mp hr
    rfl
  error he := nomatch he

theorem throw (e : ReadError) : Follows (throw e : Cursor α) (throw e) where
  ok hr := absurd hr Read.throw_ne_ok
  error {buf e'} he := by
    obtain rfl : e = e' := Except.error.inj he
    exact ⟨buf, rfl⟩

theorem get : Follows MonadState.get MonadState.get where
  ok hr := by
    obtain ⟨rfl, rfl⟩ := Prod.mk.inj (Except.ok.inj hr)
    rfl
  error he := nomatch he

theorem set (buf : Bytes) : Follows (MonadStateOf.set buf) (MonadStateOf.set buf) where
  ok hr := by
    obtain ⟨rfl, rfl⟩ := Prod.mk.inj (Except.ok.inj hr)
    rfl
  error he := nomatch he

theorem byte : Follows byte Read.byte where
  ok hr := by
    obtain rfl := Read.byte_eq_ok_iff.mp hr
    rfl
  error {buf e} he := by
    cases buf with
    | nil => exact ⟨[], by rw [← Except.error.inj he]; rfl⟩
    | cons b buf => exact nomatch he

theorem peek : Follows peek Read.upcoming where
  ok {buf rest b} hr := by
    cases buf with
    | nil => exact nomatch hr
    | cons c buf =>
        obtain ⟨rfl, rfl⟩ := Prod.mk.inj (Except.ok.inj hr)
        rfl
  error {buf e} he := by
    cases buf with
    | nil => exact ⟨[], by rw [← Except.error.inj he]; rfl⟩
    | cons c buf => exact nomatch he

theorem take (n : Nat) : Follows (take n) (Read.take n) where
  ok hr := by
    obtain ⟨rfl, rfl⟩ := Read.take_eq_ok_iff.mp hr
    rw [Cursor.take, if_pos (by simp)]
    simp
  error {buf e} he := by
    by_cases hle : n ≤ buf.length
    · rw [Read.take_of_le hle] at he
      exact nomatch he
    · rw [Read.take_of_lt (Nat.lt_of_not_le hle)] at he
      rw [Cursor.take, if_neg hle, Except.error.inj he]
      exact ⟨buf, rfl⟩

theorem number (width : Nat) : Follows (number width) (Read.number width) :=
  (take width).bind fun _ => pure _

theorem count (c : Count) : Follows (count c) c.read := by
  cases c with
  | inside n => exact pure n
  | behind width => exact number width

end Follows

end Follows

/-! ## Each read is followed -/

namespace Restores

theorem opened {α : Type} {family : Family} {k : Nat → Cursor α} {k' : Nat → Read α}
    {fault : UInt8 → ReadError} (hk : ∀ n, Follows (k n) (k' n)) :
    Restores (opened family k fault) (Read.opened family k' fault) := by
  refine onCopy (Follows.byte.bind fun b => ?_)
  rw [Read.openedBy]
  cases (Lead.ofByte b).opening? with
  | none => exact Follows.throw _
  | some opening =>
      obtain ⟨g, c⟩ := opening
      dsimp only
      split
      · exact (Follows.count c).bind hk
      · exact Follows.throw _

theorem bin : Restores bin Read.bin := by
  rw [Read.bin_eq]
  exact opened Follows.take

theorem strBytes : Restores strBytes Read.strBytes := by
  rw [Read.strBytes_eq]
  exact opened Follows.take

theorem arrayLength : Restores arrayLength Read.arrayLength := by
  rw [Read.arrayLength_eq]
  exact opened fun _ => Follows.pure _

theorem mapLength : Restores mapLength Read.mapLength := by
  rw [Read.mapLength_eq]
  exact opened fun _ => Follows.pure _

theorem extension : Restores extension Read.extension := by
  rw [Read.extension_eq]
  exact opened fun n =>
    Follows.byte.bind fun _ => (Follows.take n).bind fun _ => Follows.pure _

theorem fixedBin (size : Nat) : Restores (fixedBin size) (Read.fixedBin size) := by
  refine onCopy (bin.follows.bind fun bytes => ?_)
  cases FixedBytes.ofBytes? size bytes with
  | some fixed => exact Follows.pure fixed
  | none => exact Follows.throw _

theorem str : Restores str Read.str := by
  refine onCopy (strBytes.follows.bind fun bytes => ?_)
  cases Text.ofUtf8? bytes with
  | some s => exact Follows.pure s
  | none => exact Follows.throw _

theorem nil : Restores nil Read.nil := by
  refine onCopy (Follows.byte.bind fun b => ?_)
  cases Lead.ofByte b
  case nil => exact Follows.pure ()
  all_goals exact Follows.throw _

theorem bool : Restores bool Read.bool := by
  refine onCopy (Follows.byte.bind fun b => ?_)
  cases Lead.ofByte b
  case bool v => exact Follows.pure v
  all_goals exact Follows.throw _

theorem float : Restores float Read.float := by
  refine onCopy (Follows.byte.bind fun b => ?_)
  cases Lead.ofByte b
  case float width =>
    -- Four bytes are widened; the other widths are one case.
    match width with
    | 0 | 1 | 2 | 3 | 4 | width + 5 => exact (Follows.number _).bind fun _ => Follows.pure _
  all_goals exact Follows.throw _

theorem integer (kind : Kind) (b : UInt8) :
    Follows (integer kind b) (Read.integer kind b) := by
  rw [Cursor.integer, Read.integer]
  cases Lead.ofByte b
  case positive n => exact Follows.pure _
  case negative n => exact Follows.pure _
  case uint width => exact (Follows.number width).bind fun _ => Follows.pure _
  case int width => exact (Follows.number width).bind fun _ => Follows.pure _
  all_goals exact Follows.throw _

theorem int : Restores int Read.int := by
  refine onCopy (Follows.byte.bind fun b => (integer .int b).bind fun v => ?_)
  split
  · exact Follows.pure _
  · exact Follows.throw _

theorem uint : Restores uint Read.uint := by
  rw [Read.uint_eq]
  refine onCopy (Follows.get.bind fun start => Follows.byte.bind fun b => ?_)
  have hsigned : Follows (do
      set start
      let v ← Cursor.int
      if v < 0 then throw (.outOfRange .unsigned64) else return v.toUInt64)
      (set start >>= fun _ => Read.int >>= Read.unsigned) := by
    refine (Follows.set start).bind fun _ => int.follows.bind fun v => ?_
    rw [Read.unsigned]
    split
    · exact Follows.throw _
    · exact Follows.pure _
  rw [Read.uintBy]
  cases Lead.ofByte b
  case positive n => exact Follows.pure _
  case uint width => exact (Follows.number width).bind fun _ => Follows.pure _
  case int width => exact hsigned
  case negative n => exact hsigned
  all_goals exact Follows.throw _

theorem uint32 : Restores uint32 Read.uint32 := by
  refine onCopy (uint.follows.bind fun v => ?_)
  split
  · exact Follows.pure _
  · exact Follows.throw _

theorem uint32? (buf : Bytes) : uint32? buf = Read.uint32? buf := by
  show ((Cursor.uint32 buf).1.toOption, (Cursor.uint32 buf).2) = _
  rw [Read.uint32?]
  cases hread : Read.uint32 buf with
  | ok taken => rw [uint32.ok hread]; rfl
  | error e => rw [uint32.error hread]; rfl

theorem uint8 : Restores uint8 Read.uint8 := by
  refine onCopy (uint.follows.bind fun v => ?_)
  split
  · exact Follows.pure _
  · exact Follows.throw _

theorem mapKey : Restores mapKey Read.mapKey := by
  rw [Read.mapKey_eq]
  refine peek_bind fun b => ?_
  cases Lead.ofByte b
  case binSized width => exact bin
  all_goals exact strBytes

end Restores

/-! ## Whole values -/

theorem Follows.strideOver (header n : Nat) :
    Follows (strideOver header n) (Read.strideOver header n) :=
  (take n).bind fun _ => pure _

theorem Follows.head : Follows head Read.head := by
  refine byte.bind fun b => ?_
  cases Lead.ofByte b
  case positive | negative | nil | bool | map | array => exact pure _
  case str | ext | uint | int | float => exact strideOver _ _
  case binSized | strSized | extSized => exact (number _).bind fun _ => strideOver _ _
  case arraySized | mapSized => exact (number _).bind fun _ => pure _
  case unused => exact throw _

/-- Step over `owed` values in place. -/
def skipOwed (owed : Nat) : Cursor Unit := fun buf =>
  match owed with
  | 0 => (.ok (), buf)
  | owed + 1 =>
    if buf.length < owed + 1 then (.error (.short (owed + 1) buf.length), buf)
    else
      match _h : head buf with
      | (.error e, rest) => (.error e, rest)
      | (.ok stride, rest) => skipOwed (owed + stride.owed) rest
termination_by buf => buf.length
decreasing_by exact Read.length_lt_of_head (Follows.head.ok_iff.mp _h)

def skip : Cursor Unit := onCopy (skipOwed 1)

def raw : Cursor Bytes := do
  let start ← get
  skip
  return start.take (start.length - (← get).length)

theorem skipOwed_succ (owed : Nat) (buf : Bytes) :
    skipOwed (owed + 1) buf =
      if buf.length < owed + 1 then (.error (.short (owed + 1) buf.length), buf)
      else
        match head buf with
        | (.error e, rest) => (.error e, rest)
        | (.ok stride, rest) => skipOwed (owed + stride.owed) rest := by
  rw [skipOwed]
  split
  · rfl
  · split
    · next h => rw [h]
    · next h => rw [h]

/-- The loop takes the turns that the one over bytes takes, and stops where
that one does. -/
theorem skipOwed_run (owed : Nat) (buf : Bytes) :
    (∀ rest, Read.skipOwed owed buf.length buf = .ok rest → skipOwed owed buf = (.ok (), rest)) ∧
      ∀ e, Read.skipOwed owed buf.length buf = .error e →
        ∃ rest, skipOwed owed buf = (.error e, rest) := by
  -- On the bytes that are there: each turn reads a head and leaves fewer.
  induction hsize : buf.length using Nat.strongRecOn generalizing owed buf with
  | _ size ih =>
      subst hsize
      cases owed with
      | zero =>
          rw [Read.skipOwed_zero, skipOwed]
          exact ⟨fun rest h => by rw [Except.ok.inj h], fun e h => (nomatch h)⟩
      | succ owed =>
          rw [Read.skipOwed_succ, skipOwed_succ]
          by_cases hlt : buf.length < owed + 1
          · rw [if_pos hlt, if_pos hlt]
            refine ⟨fun rest h => (nomatch h), fun e h => ⟨buf, ?_⟩⟩
            rw [Except.error.inj h]
          · rw [if_neg hlt, if_neg hlt]
            cases hhead : Read.head buf with
            | error e =>
                obtain ⟨stop, hstop⟩ := Follows.head.error hhead
                rw [hstop]
                refine ⟨fun rest h => (nomatch h), fun e' h => ⟨stop, ?_⟩⟩
                rw [Except.error.inj h]
            | ok p =>
                obtain ⟨stride, rest⟩ := p
                rw [Follows.head.ok hhead]
                exact ih _ (Read.length_lt_of_head hhead) _ _ rfl

theorem Restores.skip : Restores skip Read.skip := by
  refine onCopy ⟨fun {buf rest a} hr => ?_, fun {buf e} he => ?_⟩
  · obtain ⟨rest, hskip, ⟨⟩⟩ := bind_eq_ok.mp hr
    exact (skipOwed_run 1 buf).1 rest hskip
  · rcases bind_eq_error.mp he with he | ⟨_, _, he⟩
    · exact (skipOwed_run 1 buf).2 e he
    · exact nomatch he

theorem Restores.raw : Restores raw Read.raw where
  ok {buf rest value} hr := by
    obtain ⟨rest, hskip, ⟨⟩⟩ := bind_eq_ok.mp hr
    have hmoved : Cursor.skip buf = (.ok (), rest) := skip.ok (bind_eq_ok.mpr ⟨rest, hskip, rfl⟩)
    exact (run_bind_of_ok rfl).trans (run_bind_of_ok hmoved)
  error {buf e} he := by
    rcases bind_eq_error.mp he with he | ⟨_, _, he⟩
    · have hkept : Cursor.skip buf = (.error e, buf) := skip.error (bind_eq_error.mpr (Or.inl he))
      exact (run_bind_of_ok rfl).trans (run_bind_eq_error.mpr (Or.inl hkept))
    · exact nomatch he

end Cursor

end MetaRecord.MessagePack
