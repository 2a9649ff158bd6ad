/-
# `MetaRecord.Proofs.MessagePack.Walk` — the stepping with a 64-bit counter

`skip` counts the values that are owed without a bound.  A `Walk` is the same
loop turn by turn, with a counter of 64 bits whose arithmetic wraps around.

The counter is exact in this sense: what was stepped over, with `t` behind it,
is one value exactly if `t` is as many values as the counter says.  A turn
keeps this as long as the counter does not wrap.  It does not, since a turn is
only made with at most as many values owed as bytes are left, and adds less
than `2 ^ 33` to them.

Main statements: `Walk.Exact.turn`, one turn keeps the counter exact; its run
`Walk.Turns.exact`; `Walk.exists_ends`, the walk ends as `skip` does; and
`Read.skip_grammar`, which says all of it.
-/
import Mathlib.Algebra.Group.Nat.Defs
import MetaRecord.Proofs.MessagePack.Skip

namespace MetaRecord.MessagePack

/-- Where the loop stands between two turns: how many values are owed, and the
bytes that are left. -/
structure Walk where
  owed : UInt64
  rest : Bytes

namespace Walk

/-! ## Turns -/

def start (buf : Bytes) : Walk := ⟨1, buf⟩

/-- One turn of the loop: the head of one of the values owed is stepped over,
and the values in it are owed instead. -/
def turn (w : Walk) : Except ReadError Walk :=
  if w.rest.length < w.owed.toNat then .error (.short w.owed.toNat w.rest.length)
  else do
    let (stride, rest) ← Read.head w.rest
    return ⟨w.owed - 1 + UInt64.ofNat stride.owed, rest⟩

/-- `n` turns of the loop lead from one point to another. -/
inductive Turns : (n : Nat) → Walk → Walk → Prop
  | none {w : Walk} : Turns 0 w w
  | more {n : Nat} {w w₁ w' : Walk} : w.owed ≠ 0 → w.turn = .ok w₁ → Turns n w₁ w' →
      Turns (n + 1) w w'

/-- How the loop ends at a point from which it makes no further turn. -/
inductive Ends (w : Walk) : Except ReadError (Unit × Bytes) → Prop
  | done : w.owed = 0 → Ends w (.ok ((), w.rest))
  | refused {e : ReadError} : w.owed ≠ 0 → w.turn = .error e → Ends w (.error e)

/-- In a walk over `buf`, the counter says how many values are owed. -/
def Exact (buf : Bytes) (w : Walk) : Prop :=
  ∃ done, buf = done ++ w.rest ∧ ∀ t, IsValue (done ++ t) ↔ IsSequence w.owed.toNat t

variable {w w' : Walk} {n : Nat} {buf : Bytes}

theorem exists_owed (howed : w.owed ≠ 0) : ∃ n, w.owed.toNat = n + 1 :=
  Nat.exists_eq_succ_of_ne_zero fun h => howed (UInt64.toNat.inj h)

theorem turn_eq_ok_iff :
    w.turn = .ok w' ↔ w.owed.toNat ≤ w.rest.length ∧ ∃ stride rest,
      Read.head w.rest = .ok (stride, rest) ∧
        w' = ⟨w.owed - 1 + UInt64.ofNat stride.owed, rest⟩ := by
  rw [turn]
  split
  · next h => simp [Nat.not_le.mpr h]
  · next h =>
      rw [bind_eq_ok]
      constructor
      · rintro ⟨⟨stride, rest⟩, hhead, ⟨⟩⟩
        exact ⟨Nat.le_of_not_lt h, stride, rest, hhead, rfl⟩
      · rintro ⟨-, stride, rest, hhead, rfl⟩
        exact ⟨_, hhead, rfl⟩

/-- A turn takes a byte at least. -/
theorem length_lt_of_turn (h : w.turn = .ok w') : w'.rest.length < w.rest.length := by
  obtain ⟨-, stride, rest, hhead, rfl⟩ := turn_eq_ok_iff.mp h
  exact Read.length_lt_of_head hhead

theorem Turns.add_length_le (h : Turns n w w') : n + w'.rest.length ≤ w.rest.length := by
  induction h with
  | none => exact Nat.le_of_eq (Nat.zero_add _)
  | more _ hturn _ ih =>
      have := length_lt_of_turn hturn
      omega

/-! ## The counter does not wrap -/

/-- A turn replaces one value that is owed by the values in it, in numbers that
do not wrap around. -/
theorem owed_of_turn (hsize : w.rest.length < 2 ^ 63) (howed : w.owed ≠ 0)
    (h : w.turn = .ok w') :
    ∃ stride, Read.head w.rest = .ok (stride, w'.rest) ∧
      w.owed.toNat - 1 + stride.owed < 2 ^ 64 ∧
      w'.owed.toNat = w.owed.toNat - 1 + stride.owed := by
  obtain ⟨hle, stride, rest, hhead, rfl⟩ := turn_eq_ok_iff.mp h
  obtain ⟨p, hp, -, -⟩ := Read.head_eq_ok_iff.mp hhead
  -- At most as many values are owed as bytes are left, and a head adds few to them.
  have hstride := hp.owed_lt
  have hlt : w.owed.toNat - 1 + stride.owed < 2 ^ 64 := by omega
  refine ⟨stride, hhead, hlt, ?_⟩
  obtain ⟨n, hn⟩ := exists_owed howed
  have hone : (1 : UInt64) ≤ w.owed :=
    UInt64.le_iff_toNat_le.mpr (hn ▸ Nat.le_add_left 1 n)
  show (w.owed - 1 + UInt64.ofNat stride.owed).toNat = _
  rw [UInt64.toNat_add, UInt64.toNat_sub_of_le _ _ hone,
    UInt64.toNat_ofNat_of_lt' (Nat.lt_trans hstride (by decide))]
  exact Nat.mod_eq_of_lt hlt

/-! ## The counter is exact -/

theorem exact_start (buf : Bytes) : Exact buf (start buf) :=
  ⟨[], rfl, fun _ => isSequence_one_iff.symm⟩

/-- At any point, one number of values is exact and no other. -/
theorem Exact.owed_unique (h : Exact buf w) (h' : Exact buf w') (hrest : w.rest = w'.rest) :
    w.owed = w'.owed := by
  obtain ⟨done, hbuf, hdone⟩ := h
  obtain ⟨done', hbuf', hdone'⟩ := h'
  obtain rfl : done = done' := by
    rw [hbuf, hrest] at hbuf'
    exact List.append_cancel_right hbuf'
  have hmany := isSequence_replicate w.owed.toNat
  exact UInt64.toNat.inj (hmany.number_unique ((hdone' _).mp ((hdone _).mpr hmany)))

theorem Exact.length_le (h : Exact buf w) : w.rest.length ≤ buf.length := by
  obtain ⟨done, rfl, -⟩ := h
  simp

theorem Exact.turn (hsize : buf.length < 2 ^ 63) (hw : Exact buf w) (howed : w.owed ≠ 0)
    (h : w.turn = .ok w') : Exact buf w' := by
  obtain ⟨stride, hhead, -, howed'⟩ := owed_of_turn (Nat.lt_of_le_of_lt hw.length_le hsize) howed h
  obtain ⟨p, hp, -, hrest⟩ := Read.head_eq_ok_iff.mp hhead
  obtain ⟨done, hbuf, hdone⟩ := hw
  obtain ⟨n, hn⟩ := exists_owed howed
  refine ⟨done ++ p, by rw [hbuf, hrest, List.append_assoc], fun t => ?_⟩
  calc IsValue (done ++ p ++ t) ↔ IsSequence (n + 1) (p ++ t) := by
        rw [List.append_assoc, hdone, hn]
    _ ↔ IsSequence (n + stride.owed) t := isSequence_append_iff hp
    _ ↔ IsSequence w'.owed.toNat t := by rw [howed', hn, Nat.add_sub_cancel]

theorem Turns.exact (hsize : buf.length < 2 ^ 63) (hw : Exact buf w) (h : Turns n w w') :
    Exact buf w' := by
  induction h with
  | none => exact hw
  | more howed hturn _ ih => exact ih (hw.turn hsize howed hturn)

/-! ## The walk and the stepping without a bound -/

/-- What is left to do for the values owed at a point of a walk. -/
def remainder (w : Walk) : Except ReadError (Unit × Bytes) := do
  let rest ← Read.skipOwed w.owed.toNat w.rest.length w.rest
  return ((), rest)

theorem remainder_of_turn (hsize : w.rest.length < 2 ^ 63) (howed : w.owed ≠ 0)
    (h : w.turn = .ok w') : w.remainder = w'.remainder := by
  obtain ⟨stride, hhead, -, howed'⟩ := owed_of_turn hsize howed h
  obtain ⟨hle, -⟩ := turn_eq_ok_iff.mp h
  obtain ⟨n, hn⟩ := exists_owed howed
  rw [remainder, remainder, howed', hn, Read.skipOwed_succ, if_neg (by omega), hhead,
    Nat.add_sub_cancel]

theorem remainder_of_refused {e : ReadError} (howed : w.owed ≠ 0) (h : w.turn = .error e) :
    w.remainder = .error e := by
  obtain ⟨n, hn⟩ := exists_owed howed
  rw [remainder, hn, Read.skipOwed_succ]
  rw [turn, hn] at h
  split at h
  · next hlt =>
      obtain rfl := Except.error.inj h
      rw [if_pos hlt]
      rfl
  · next hlt =>
      rw [if_neg hlt]
      rcases bind_eq_error.mp h with hhead | ⟨x, -, hpure⟩
      · rw [hhead]
        rfl
      · exact nomatch hpure

theorem exists_ends (hsize : w.rest.length < 2 ^ 63) :
    ∃ n w', Turns n w w' ∧ w'.Ends w.remainder := by
  -- Turns take bytes, so they run out.
  induction hrest : w.rest.length using Nat.strongRecOn generalizing w with
  | _ size ih =>
      subst hrest
      by_cases howed : w.owed = 0
      · refine ⟨0, w, .none, ?_⟩
        rw [remainder, howed]
        show w.Ends (Read.skipOwed 0 _ _ >>= _)
        rw [Read.skipOwed_zero]
        exact .done howed
      · cases hturn : w.turn with
        | error e =>
            refine ⟨0, w, .none, ?_⟩
            rw [remainder_of_refused howed hturn]
            exact .refused howed hturn
        | ok w₁ =>
            have hlt := length_lt_of_turn hturn
            obtain ⟨n, w', hturns, hends⟩ := ih _ hlt (Nat.lt_trans hlt hsize) rfl
            rw [remainder_of_turn hsize howed hturn]
            exact ⟨n + 1, w', .more howed hturn hturns, hends⟩

end Walk

namespace Read

/-! ## What `skip` accepts -/

/-- `skip` accepts the values of the format and nothing else: it succeeds
exactly in front of a value and leaves what follows; there is one such value,
and it is what `raw` gives.  Each turn of its loop takes a byte at least, so
there are at most as many turns as bytes.  Over fewer than `2 ^ 63` bytes, the
64-bit counter between two turns is the one number of values that is exact, it
never wraps around, and the loop ends as `skip` does. -/
theorem skip_grammar (buf : Bytes) :
    (∀ rest, skip buf = .ok ((), rest) ↔ ∃ o, IsValue o ∧ buf = o ++ rest) ∧
    (∀ o rest, raw buf = .ok (o, rest) ↔ IsValue o ∧ buf = o ++ rest) ∧
    (∀ o o' rest rest', IsValue o → buf = o ++ rest → IsValue o' → buf = o' ++ rest' → o = o') ∧
    (∀ n w, Walk.Turns n (.start buf) w → n + w.rest.length ≤ buf.length ∧
      ∀ w', w.turn = .ok w' → w'.rest.length < w.rest.length) ∧
    (buf.length < 2 ^ 63 →
      (∀ n w, Walk.Turns n (.start buf) w →
        (∀ owed, Walk.Exact buf ⟨owed, w.rest⟩ ↔ owed = w.owed) ∧
        ∀ w', w.owed ≠ 0 → w.turn = .ok w' →
          ∃ stride, head w.rest = .ok (stride, w'.rest) ∧
            w.owed.toNat - 1 + stride.owed < 2 ^ 64 ∧
            w'.owed.toNat = w.owed.toNat - 1 + stride.owed) ∧
      ∃ n w, Walk.Turns n (.start buf) w ∧ w.Ends (skip buf)) := by
  refine ⟨fun rest => skip_eq_ok_iff, fun o rest => raw_eq_ok_iff, ?_, ?_, fun hsize => ⟨?_, ?_⟩⟩
  · intro o o' rest rest' ho hbuf ho' hbuf'
    exact (ho.append_inj ho' (hbuf.symm.trans hbuf')).1
  · intro n w hturns
    exact ⟨hturns.add_length_le, fun w' => Walk.length_lt_of_turn⟩
  · intro n w hturns
    have hexact := hturns.exact hsize (Walk.exact_start buf)
    refine ⟨fun owed => ⟨fun h => h.owed_unique hexact rfl, ?_⟩, fun w' => ?_⟩
    · rintro rfl
      exact hexact
    · exact Walk.owed_of_turn (Nat.lt_of_le_of_lt hexact.length_le hsize)
  · exact Walk.exists_ends hsize

/-- A map from a text to an array and from a byte string to an empty text. -/
def nested : Bytes := [0x82, 0xa1, 0x61, 0x92, 0x01, 0xc0, 0xc4, 0x01, 0x62, 0xa0]

theorem isValue_nested : IsValue nested := by
  have hkey : Encodes (.text [0x61]) ([0xa1] ++ [0x61]) := .str (.inside (by decide))
  have harray : Encodes (.array [.plain, .plain]) ([0x92] ++ ([0x01] ++ ([0xc0] ++ []))) :=
    .array (.inside (by decide))
      (.cons (@Encodes.scalar _ [] (by decide)) (.cons (@Encodes.scalar _ [] (by decide)) .nil))
  have hbin : Encodes .plain (Write.sized 0xc4 1 1 ++ [0x62]) :=
    .bin (.behind (by decide) (by decide))
  have htext : Encodes (.text []) ([0xa0] ++ []) := .str (.inside (by decide))
  have hmap := @Encodes.map [(_, _), (_, _)] [0x82] _ (.inside (by decide))
    (.cons hkey (.cons harray (.cons hbin (.cons htext .nil))))
  exact ⟨_, hmap⟩

/-- In front of another byte, the value is given whole, after at most eleven
turns of the loop. -/
theorem skip_grammar_nested :
    raw (nested ++ [0xff]) = .ok (nested, [0xff]) ∧
      ∃ n w, n ≤ 11 ∧ Walk.Turns n (.start (nested ++ [0xff])) w ∧ w.Ends (.ok ((), [0xff])) := by
  obtain ⟨hskip, hraw, -, hturns, hcounter⟩ := skip_grammar (nested ++ [0xff])
  obtain ⟨-, n, w, hwalk, hends⟩ := hcounter (by decide)
  rw [(hskip [0xff]).mpr ⟨nested, isValue_nested, rfl⟩] at hends
  have hlength := (hturns n w hwalk).1
  exact ⟨(hraw nested [0xff]).mpr ⟨isValue_nested, rfl⟩, n, w, Nat.le_of_add_right_le hlength,
    hwalk, hends⟩

end Read

end MetaRecord.MessagePack
