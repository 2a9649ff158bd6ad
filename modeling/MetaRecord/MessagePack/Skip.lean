/-
# `MetaRecord.MessagePack.Skip` — stepping over one whole value

A value with everything nested in it is stepped over without recursion on its
depth: a counter holds how many values are still owed, each step reads the
head of one of them, and an array or a map adds what it contains.  Every owed
value needs at least one byte, so a count that the remaining bytes cannot meet
is refused before anything is read for it.

Main statements: `head_size` (a step consumes exactly the bytes it reports,
and at least one), hence `length_lt_of_head` (the stepping ends) and
`skipOwed_succ` (the counter of remaining bytes is the length of the rest).
-/
import MetaRecord.MessagePack.Reader

namespace MetaRecord.MessagePack

/-- What one step over the head of a value did: how many values it added to
those owed, and how many bytes it consumed. -/
structure Stride where
  owed : Nat
  size : Nat
deriving DecidableEq, Repr

namespace Read

/-- A head of `header` bytes that is followed by `n` bytes of its own. -/
def strideOver (header n : Nat) : Read Stride := do
  let _ ← take n
  return ⟨0, header + n⟩

/-- Step over the head of one value: its first byte, its length or count, and
the bytes that belong to it alone. -/
def head : Read Stride := do
  let b ← byte
  match Lead.ofByte b with
  | .positive _ | .negative _ | .nil | .bool _ => return ⟨0, 1⟩
  | .map n => return ⟨2 * n, 1⟩
  | .array n => return ⟨n, 1⟩
  | .str n => strideOver 1 n
  | .binSized width | .strSized width => strideOver (1 + width) (← number width)
  | .ext n => strideOver 1 (n + 1)
  | .extSized width => strideOver (1 + width) ((← number width) + 1)
  | .uint width | .int width | .float width => strideOver 1 width
  | .arraySized width => return ⟨← number width, 1 + width⟩
  | .mapSized width => return ⟨2 * (← number width), 1 + width⟩
  | .unused => throw (.wrongKind .object b)

theorem strideOver_eq_ok_iff {header n : Nat} {buf rest : Bytes} {s : Stride} :
    strideOver header n buf = .ok (s, rest) ↔
      s = ⟨0, header + n⟩ ∧ ∃ own : Bytes, buf = own ++ rest ∧ own.length = n := by
  simp only [strideOver, bind_eq_ok_iff, take_eq_ok_iff, pure_eq_ok_iff]
  constructor
  · rintro ⟨own, mid, h, rfl, rfl⟩
    exact ⟨rfl, own, h⟩
  · rintro ⟨rfl, own, h⟩
    exact ⟨own, rest, h, rfl, rfl⟩

/-- A step consumes exactly the bytes it reports, and at least one. -/
theorem head_size {buf rest : Bytes} {s : Stride} (h : head buf = .ok (s, rest)) :
    s.size + rest.length = buf.length ∧ 0 < s.size := by
  simp only [head, bind_eq_ok_iff, byte_eq_ok_iff] at h
  obtain ⟨b, mid, rfl, h⟩ := h
  have step {n : Nat} (h : (pure ⟨n, 1⟩ : Read Stride) mid = .ok (s, rest)) :
      s.size + rest.length = (b :: mid).length ∧ 0 < s.size := by
    obtain ⟨rfl, rfl⟩ := pure_eq_ok_iff.1 h
    exact ⟨by simp; omega, Nat.one_pos⟩
  have passed {n : Nat} (h : strideOver 1 n mid = .ok (s, rest)) :
      s.size + rest.length = (b :: mid).length ∧ 0 < s.size := by
    obtain ⟨rfl, own, rfl, rfl⟩ := strideOver_eq_ok_iff.1 h
    exact ⟨by simp; omega, by dsimp only; omega⟩
  have sized {width : Nat} {f : Nat → Nat} (h : (do
      let n ← number width
      strideOver (1 + width) (f n)) mid = .ok (s, rest)) :
      s.size + rest.length = (b :: mid).length ∧ 0 < s.size := by
    obtain ⟨n, mid', hn, h⟩ := bind_eq_ok_iff.1 h
    obtain ⟨digits, rfl, rfl, rfl⟩ := number_eq_ok_iff.1 hn
    obtain ⟨rfl, own, rfl, hown⟩ := strideOver_eq_ok_iff.1 h
    exact ⟨by simp; omega, by dsimp only; omega⟩
  have counted {width : Nat} {f : Nat → Nat} (h : (do
      let n ← number width
      pure ⟨f n, 1 + width⟩ : Read Stride) mid = .ok (s, rest)) :
      s.size + rest.length = (b :: mid).length ∧ 0 < s.size := by
    obtain ⟨n, mid', hn, h⟩ := bind_eq_ok_iff.1 h
    obtain ⟨digits, rfl, rfl, rfl⟩ := number_eq_ok_iff.1 hn
    obtain ⟨rfl, rfl⟩ := pure_eq_ok_iff.1 h
    exact ⟨by simp; omega, by dsimp only; omega⟩
  cases hl : Lead.ofByte b <;> rw [hl] at h
  case positive | negative | nil | bool | map | array => exact step h
  case str | ext | uint | int | float => exact passed h
  case binSized | strSized => exact sized (f := id) h
  case extSized => exact sized (f := (· + 1)) h
  case arraySized => exact counted (f := id) h
  case mapSized => exact counted (f := (2 * ·)) h
  case unused => exact absurd h throw_ne_ok

theorem length_lt_of_head {buf rest : Bytes} {s : Stride} (h : head buf = .ok (s, rest)) :
    rest.length < buf.length := by
  have := head_size h
  omega

/-- Step over `owed` values at the front of `buf`, which has `left` bytes;
gives the bytes after them. -/
def skipOwed (owed left : Nat) (buf : Bytes) : Except ReadError Bytes :=
  match owed with
  | 0 => .ok buf
  | owed + 1 =>
    if left < owed + 1 then .error (.short (owed + 1) left)
    else
      match _h : head buf with
      | .error e => .error e
      | .ok (stride, rest) => skipOwed (owed + stride.owed) (left - stride.size) rest
termination_by buf.length
decreasing_by exact length_lt_of_head _h

/-- Step over one value with everything nested in it. -/
def skip : Read Unit := fun buf => do
  let rest ← skipOwed 1 buf.length buf
  return ((), rest)

/-- One value with everything nested in it, as the bytes it occupies. -/
def raw : Read Bytes := fun buf => do
  let rest ← skipOwed 1 buf.length buf
  return (buf.take (buf.length - rest.length), rest)

@[simp] theorem skipOwed_zero (left : Nat) (buf : Bytes) : skipOwed 0 left buf = .ok buf := by
  rw [skipOwed]

/-- The counter of remaining bytes stays the length of the rest. -/
theorem skipOwed_succ (owed : Nat) (buf : Bytes) :
    skipOwed (owed + 1) buf.length buf =
      if buf.length < owed + 1 then .error (.short (owed + 1) buf.length)
      else
        match head buf with
        | .error e => .error e
        | .ok (stride, rest) => skipOwed (owed + stride.owed) rest.length rest := by
  rw [skipOwed]
  split
  · rfl
  · split
    · rename_i h; rw [h]
    · rename_i stride rest h
      rw [h]
      have := head_size h
      simp only [show buf.length - stride.size = rest.length by omega]

end Read

end MetaRecord.MessagePack
